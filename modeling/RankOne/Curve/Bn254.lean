import RankOne.Bytes.Codec
import RankOne.Curve.Pairing
import RankOne.Field.TwoAdic

/-!
# The curve BN254

The curve `y² = x³ + 3` over a field of 254 bits and its twist over the
quadratic extension, both with a subgroup of prime order `r`.

A point is written as its first coordinate, least significant byte first, the
real part before the imaginary part. A residue leaves the two highest bits of
its last byte free, and there the flags go: one bit for infinity, and one bit
for the larger of the two second coordinates.
-/

namespace RankOne.Bn254

/-- Order of the groups, and modulus of the scalar field. -/
def r : Nat :=
  21888242871839275222246405745257275088548364400416034343698204186575808495617

/-- Modulus of the base field. -/
def q : Nat :=
  21888242871839275222246405745257275088696311157297823662689037894645226208583

instance : Modulus r := ⟨by decide⟩

instance : Modulus q := ⟨by decide⟩

/-- The scalar field has roots of unity of order `2 ^ 28`; five generates its
multiplicative group. -/
instance : TwoAdic r where
  adicity := 28
  root := power (Fp.ofNat r 5) ((r - 1) >>> 28)

/-- The pairing loop runs to `6x²` for the curve parameter
`x = 4965661367192848881`. -/
instance : AteParameters q where
  order := r
  loopLength := 147946756881789318990833708069417712966
  twist := .divided
  sixthPower := ⟨Fp.ofNat q 9, 1⟩

/-- The curve over the base field. All its points belong to the subgroup. -/
instance : Curve (Fp q) where
  b := Fp.ofNat q 3
  order := r
  cofactor := 1
  generator := .affine 1 (Fp.ofNat q 2)

/-- The twist. -/
instance : Curve (Fp2 q) where
  b := ⟨Fp.ofNat q 3, 0⟩ * (Radicand.radicand : Fp2 q)⁻¹
  order := r
  cofactor :=
    21888242871839275222246405745257275088844257914179612981679871602714643921549
  generator := .affine
    ⟨Fp.ofNat q
      10857046999023057135944570762232829481370756359578518086990519993285655852781,
      Fp.ofNat q
      11559732032986387107991004021392285783925812861821192530917403151452391805634⟩
    ⟨Fp.ofNat q
      8495653923123431417604973247489272438418190587263600148770280649306958101930,
      Fp.ofNat q
      4082367875863433681332203403145435568316851327593401208105741076214120093531⟩

/-! ## Encoding -/

/-- What the flags say about the point that a first coordinate belongs to: its
second coordinate is the smaller one, it is infinity, or its second coordinate
is the larger one. -/
inductive Mark where
  | smaller
  | infinity
  | larger
deriving DecidableEq, Repr

namespace Mark

/-- The two flag bits. -/
def bits : Mark → Nat
  | smaller => 0
  | infinity => 1
  | larger => 2

/-- The meaning of two flag bits. -/
def ofBits? : Nat → Option Mark
  | 0 => some smaller
  | 1 => some infinity
  | 2 => some larger
  | _ => none

end Mark

/-- The place value of the flag bits of a residue. -/
def flagPlace : Nat := 1 <<< 254

/-- Writes a residue with flags. -/
def encodeMarked (x : Fp q) (mark : Mark) : List UInt8 :=
  littleEndian 32 (x.val + flagPlace * mark.bits)

/-- Reads a residue with flags. The flags are looked at before the residue. -/
def readMarked : Decoder (Fp q × Mark) := do
  let n := ofLittleEndian (← Decoder.block 32)
  match Mark.ofBits? (n / flagPlace) with
  | none => Decoder.fail .unexpectedFlags
  | some mark =>
    return (← Decoder.require (Fp.ofCanonical? (n % flagPlace)), mark)

/-- A field whose elements are written with flags in `size` bytes. -/
class MarkedCoordinate (K : Type) where
  size : Nat
  encode : K → Mark → List UInt8
  read : Decoder (K × Mark)

instance : MarkedCoordinate (Fp q) where
  size := 32
  encode := encodeMarked
  read := readMarked

/-- The flags are those of the imaginary part, which comes last. -/
instance : MarkedCoordinate (Fp2 q) where
  size := 64
  encode x mark := Codec.encode x.re ++ encodeMarked x.im mark
  read := do
    let re ← Codec.read
    let (im, mark) ← readMarked
    return (⟨re, im⟩, mark)

variable {K : Type} [CoordinateField K] [Curve K] [MarkedCoordinate K]

/-- The point that a first coordinate with flags belongs to. -/
def pointOf? (x : K) : Mark → Option (Point K)
  | .infinity => some .infinity
  | .smaller => Curve.lift? x false
  | .larger => Curve.lift? x true

/-- In memory a point holds two coordinates and a word. Infinity is written with
a zero. -/
instance : Codec (Point K) where
  footprint := 2 * MarkedCoordinate.size K + 8
  encode
    | .infinity => MarkedCoordinate.encode (0 : K) .infinity
    | .affine x y =>
        MarkedCoordinate.encode x (if CoordinateField.isLarger y then .larger
          else .smaller)
  read := do
    let (x, mark) ← (MarkedCoordinate.read : Decoder (K × Mark))
    Decoder.require (pointOf? x mark)
  admits := Curve.inSubgroup

end RankOne.Bn254
