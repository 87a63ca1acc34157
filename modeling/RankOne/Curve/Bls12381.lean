import RankOne.Bytes.Codec
import RankOne.Curve.Pairing
import RankOne.Field.TwoAdic

/-!
# The curve BLS12-381

The curve `y² = x³ + 4` over a field of 381 bits and its twist over the
quadratic extension, both with a subgroup of prime order `r`.

A point is written as its first coordinate, most significant byte first, the
imaginary part before the real part. The three highest bits of the first byte
are flags: one that the point is written by its first coordinate alone, one for
infinity, and one for the larger of the two second coordinates. All bytes of a
point are read before the flags are looked at.
-/

namespace RankOne.Bls12381

/-- Order of the groups, and modulus of the scalar field. -/
def r : Nat :=
  52435875175126190479447740508185965837690552500527637822603658699938581184513

/-- Modulus of the base field. -/
def q : Nat :=
  0x1a0111ea397fe69a4b1ba7b6434bacd764774b84f38512bf6730d2a0f6b0f6241eabfffeb153ffffb9feffffffffaaab

instance : Modulus r := ⟨by decide⟩

instance : Modulus q := ⟨by decide⟩

/-- The scalar field has roots of unity of order `2 ^ 32`; seven generates its
multiplicative group. -/
instance : TwoAdic r where
  adicity := 32
  root := power (Fp.ofNat r 7) ((r - 1) >>> 32)

/-- The pairing loop runs to the absolute value of the curve parameter. -/
instance : AteParameters q where
  order := r
  loopLength := 0xd201000000010000
  twist := .multiplied
  sixthPower := ⟨1, 1⟩

/-- The curve over the base field. -/
instance : Curve (Fp q) where
  b := Fp.ofNat q 4
  order := r
  cofactor := 76329603384216526031706109802092473003
  generator := .affine
    (Fp.ofNat q
      3685416753713387016781088315183077757961620795782546409894578378688607592378376318836054947676345821548104185464507)
    (Fp.ofNat q
      1339506544944476473020471379941921221584933875938349620426543736416511423956333506472724655353366534992391756441569)

/-- The twist. -/
instance : Curve (Fp2 q) where
  b := ⟨Fp.ofNat q 4, 0⟩ * Radicand.radicand
  order := r
  cofactor :=
    305502333931268344200999753193121504214466019254188142667664032982267604182971884026507427359259977847832272839041616661285803823378372096355777062779109
  generator := .affine
    ⟨Fp.ofNat q
      352701069587466618187139116011060144890029952792775240219908644239793785735715026873347600343865175952761926303160,
      Fp.ofNat q
      3059144344244213709971259814753781636986470325476647558659373206291635324768958432433509563104347017837885763365758⟩
    ⟨Fp.ofNat q
      1985150602287291935568054521177171638300868978215655730859378665066344726373823718423869104263333984641494340347905,
      Fp.ofNat q
      927553665492332455747201965776037880757740193453592970025027978793976877002675564980949289727957565575433344219582⟩

/-! ## Encoding -/

/-- The three flags: the point is written by its first coordinate alone, it is
infinity, and its second coordinate is the larger one. -/
structure Flags where
  compressed : Bool
  infinity : Bool
  larger : Bool
deriving DecidableEq, Repr

namespace Flags

/-- The flags as three bits. -/
def bits (flags : Flags) : Nat :=
  4 * flags.compressed.toNat + 2 * flags.infinity.toNat + flags.larger.toNat

/-- The flags of three bits. -/
def ofBits (n : Nat) : Flags := ⟨n.testBit 2, n.testBit 1, n.testBit 0⟩

/-- Whether the flags go together, and whether they belong to a compressed
point. -/
def check (flags : Flags) : Decoder Unit :=
  if flags.larger && (!flags.compressed || flags.infinity) then
    Decoder.fail .invalidData
  else if !flags.compressed then Decoder.fail .unexpectedFlags
  else return ()

end Flags

/-- The place value of the flags of a residue. -/
def flagPlace : Nat := 1 <<< 381

/-- Number of bytes of a residue. -/
def residueSize : Nat := 48

/-- A field whose elements are written behind flags in `size` bytes. `ofBytes?`
is the element in some bytes, leaving out the flags. -/
class FlaggedCoordinate (K : Type) where
  size : Nat
  encode : K → Flags → List UInt8
  ofBytes? : List UInt8 → Option K

/-- Writes a residue behind flags. -/
def encodeFlagged (x : Fp q) (flags : Flags) : List UInt8 :=
  bigEndian residueSize (x.val + flagPlace * flags.bits)

/-- The residue in some bytes, leaving out the flags. -/
def residueOf? (bytes : List UInt8) : Option (Fp q) :=
  Fp.ofCanonical? (ofBigEndian bytes % flagPlace)

instance : FlaggedCoordinate (Fp q) where
  size := residueSize
  encode := encodeFlagged
  ofBytes? := residueOf?

/-- The flags are those of the imaginary part, which comes first. -/
instance : FlaggedCoordinate (Fp2 q) where
  size := 2 * residueSize
  encode x flags := encodeFlagged x.im flags ++ bigEndian residueSize x.re.val
  ofBytes? bytes := do
    let im ← residueOf? (bytes.take residueSize)
    let re ← Fp.ofCanonical? (ofBigEndian (bytes.drop residueSize))
    return ⟨re, im⟩

/-- The flags at the front of some bytes. -/
def flagsOf (bytes : List UInt8) : Flags :=
  Flags.ofBits (ofBigEndian (bytes.take residueSize) / flagPlace)

variable {K : Type} [CoordinateField K] [Curve K] [FlaggedCoordinate K]

/-- The point that a first coordinate with flags belongs to. Infinity has first
coordinate zero. -/
def pointOf? (x : K) (flags : Flags) : Option (Point K) :=
  if flags.infinity then
    if x = 0 then some .infinity else none
  else Curve.lift? x flags.larger

/-- In memory a point holds two coordinates and a word. -/
instance : Codec (Point K) where
  footprint := 2 * FlaggedCoordinate.size K + 8
  encode
    | .infinity => FlaggedCoordinate.encode (0 : K) ⟨true, true, false⟩
    | .affine x y =>
      FlaggedCoordinate.encode x ⟨true, false, CoordinateField.isLarger y⟩
  read := do
    let bytes ← Decoder.blockOr .invalidData (FlaggedCoordinate.size K)
    let flags := flagsOf bytes
    flags.check
    let x ← Decoder.require (FlaggedCoordinate.ofBytes? bytes : Option K)
    Decoder.require (pointOf? x flags)
  admits := Curve.inSubgroup

end RankOne.Bls12381
