import RankOne.Field.TwoAdic
import RankOne.Failure

/-!
# Power-of-two evaluation domains

An evaluation domain is the group of `n`-th roots of unity for a power of two
`n`, together with a shift `g` whose square is the group's generator. The shift
has order `2n`, so `gⁿ = -1` and the vanishing polynomial `Xⁿ - 1` takes the
constant value `-2` on the coset of the points `g·ωⁱ`.
-/

namespace RankOne

-- Powers of numbers are those of the language, also beside an algebra library.
attribute [local instance (2000)] instPowNat

/-- Why there is no evaluation domain: the field has no group of roots of unity
large enough for `size` points and their shift. -/
inductive DomainError where
  | tooLarge (size adicity : Nat)
deriving DecidableEq, Repr

namespace DomainError

/-- The text of a domain error. -/
def message : DomainError → String
  | tooLarge size adicity =>
      s!"No evaluation domain of size {size}: field two-adicity is {adicity}"

end DomainError

/-- The exponent of the smallest power of two that is at least `size`. -/
def ceilLog2 (size : Nat) : Nat :=
  if size ≤ 1 then 0 else (size - 1).log2 + 1

/-- A group of roots of unity of order `2 ^ logSize` with a shift of twice that
order. -/
structure EvaluationDomain (p : Nat) where
  logSize : Nat
  sizeInv : Fp p
  generator : Fp p
  generatorInv : Fp p
  shift : Fp p
  shiftInv : Fp p
deriving DecidableEq

namespace EvaluationDomain

variable {p : Nat}

/-- Number of points. -/
def size (domain : EvaluationDomain p) : Nat := 2 ^ domain.logSize

/-- The smallest domain with at least `size` points. The field must also have
the shift, a root of unity of twice the order, and roots are looked up by an
order of 64 bits. -/
def ofSize (p : Nat) [TwoAdic p] (size : Nat) :
    Except DomainError (EvaluationDomain p) :=
  let logSize := ceilLog2 size
  if logSize + 1 ≤ TwoAdic.adicity p ∧ logSize + 1 < 64 then
    let generator := TwoAdic.rootOfOrder p logSize
    let shift := TwoAdic.rootOfOrder p (logSize + 1)
    .ok {
      logSize
      sizeInv := (Fp.ofNat p (2 ^ logSize))⁻¹
      generator
      generatorInv := generator⁻¹
      shift
      shiftInv := shift⁻¹ }
  else .error (.tooLarge size (TwoAdic.adicity p))

/-- The value of the vanishing polynomial `Xⁿ - 1`. -/
def vanishing [Modulus p] (domain : EvaluationDomain p) (x : Fp p) : Fp p :=
  power x domain.size - 1

/-- The inverse of the vanishing polynomial on the coset, `-1/2`: the integer
`(p - 1) / 2` is that residue for an odd modulus. -/
def vanishingInvOnCoset [Modulus p] (_domain : EvaluationDomain p) : Fp p :=
  Fp.ofNat p ((p - 1) / 2)

end EvaluationDomain

end RankOne
