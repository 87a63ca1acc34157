import RankOne.Field.Prime

/-!
# Roots of unity of power-of-two order

The multiplicative group of a scalar field has `p - 1` elements. When a high
power of two divides that number the field has elements whose order is a large
power of two, and these index the evaluation domains of the quotient step.

`TwoAdic p` names one such element, `root`, and the exponent `adicity` of its
order. The root of order `2 ^ k` for a smaller `k` is a power of it.
-/

namespace RankOne

-- Powers of numbers are those of the language, also beside an algebra library.
attribute [local instance (2000)] instPowNat

/-- A modulus with a designated element of order `2 ^ adicity`. -/
class TwoAdic (p : Nat) extends Modulus p where
  adicity : Nat
  root : Fp p

namespace TwoAdic

variable {p : Nat} [TwoAdic p]

/-- The designated root of order `2 ^ k`, for `k` at most the adicity. -/
def rootOfOrder (p : Nat) [TwoAdic p] (k : Nat) : Fp p :=
  power (root : Fp p) (2 ^ (adicity p - k))

end TwoAdic

end RankOne
