import RankOne.Field.Extension
import RankOne.Field.Prime

/-!
# Fields of coordinates

Points of a curve have coordinates in a prime field or in its extension by a
square root of minus one. Besides the field operations a coordinate field offers
square roots, to find a point from its first coordinate, and an order that tells
a nonzero element from its negative.
-/

namespace RankOne

/-- A field that points can have coordinates in. -/
class CoordinateField (K : Type)
    extends Zero K, One K, Add K, Sub K, Neg K, Mul K, Inv K where
  decEq : DecidableEq K
  sqrt? : K → Option K
  /-- Whether the first element is larger than the second in the order used for
  signs. -/
  exceeds : K → K → Bool

namespace CoordinateField

instance {K : Type} [CoordinateField K] : DecidableEq K := CoordinateField.decEq

/-- The larger or the smaller one of an element and its negative. -/
def withSign {K : Type} [CoordinateField K] (larger : Bool) (y : K) : K :=
  if exceeds y (-y) = larger then y else -y

/-- Whether an element is the larger one of itself and its negative. -/
def isLarger {K : Type} [CoordinateField K] (y : K) : Bool := exceeds y (-y)

end CoordinateField

section PrimeField

variable {p : Nat} [Modulus p]

/-- The order of a prime field compares canonical representatives. -/
instance : CoordinateField (Fp p) where
  decEq := inferInstance
  sqrt? := Fp.sqrt?
  exceeds a b := b.val < a.val

/-- A square root of minus one is adjoined to a prime field. -/
instance : Radicand (Fp p) := ⟨-1⟩

end PrimeField

/-- The extension of a prime field by a square root of minus one. -/
abbrev Fp2 (p : Nat) := Quadratic (Fp p)

namespace Fp2

variable {p : Nat} [Modulus p]

/-- A square root of an element of the prime field: it is real or imaginary. -/
def sqrtOfReal? (re : Fp p) : Option (Fp2 p) :=
  match re.sqrt? with
  | some root => some ⟨root, 0⟩
  | none => (-re).sqrt?.map fun root => ⟨0, root⟩

/-- A square root `x + y·i` of `re + im·i` with `im` nonzero. The norm must have
a root `n`; then `x²` is one of `(re ± n) / 2`, and `y` is determined by
`2·x·y = im`. -/
def sqrtOfComplex? (a : Fp2 p) : Option (Fp2 p) := do
  let norm ← (a.re * a.re + a.im * a.im).sqrt?
  let half : Fp p := (Fp.ofNat p 2)⁻¹
  let x ← match ((a.re + norm) * half).sqrt? with
    | some x => some x
    | none => ((a.re - norm) * half).sqrt?
  let root : Fp2 p := ⟨x, a.im * half * x⁻¹⟩
  if root * root = a then some root else none

/-- A square root, if there is one. -/
def sqrt? (a : Fp2 p) : Option (Fp2 p) :=
  if a.im = 0 then sqrtOfReal? a.re else sqrtOfComplex? a

end Fp2

/-- The order of the extension compares imaginary parts, and real parts when
they agree. -/
instance {p : Nat} [Modulus p] : CoordinateField (Fp2 p) where
  decEq := inferInstance
  sqrt? := Fp2.sqrt?
  exceeds a b :=
    b.im.val < a.im.val || (a.im.val == b.im.val && b.re.val < a.re.val)

end RankOne
