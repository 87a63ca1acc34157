import RankOne.Polynomial.Transform

/-!
# The quotient by the vanishing polynomial

Three row vectors `a`, `b`, `c` are the values of polynomials `A`, `B`, `C` over
a domain. When `a·b = c` in every row the polynomial `A·B - C` is a multiple of
the vanishing polynomial, and `quotient` lists the coefficients of the other
factor.

The vectors are interpolated without normalisation; one power table then
normalises and shifts to the coset at once. There the vanishing polynomial is
the constant `-2`, so the division is one product per point, and a second fused
table brings the result back to coefficients.
-/

namespace RankOne

namespace EvaluationDomain

variable {p : Nat} [Modulus p]

/-- Values over the domain to values over the coset, with one table for
normalising and shifting. -/
def toCoset (domain : EvaluationDomain p) (workers : Nat)
    (values : List (Fp p)) : List (Fp p) :=
  domain.fft
    (scaleBy (powerTable workers domain.sizeInv domain.shift domain.size)
    (domain.ifftUnnormalized values))

/-- The coefficients of `(A·B - C) / (Xⁿ - 1)`. The vectors have one common
length, at most the number of points, and are continued by zeros. -/
def quotient (domain : EvaluationDomain p) (workers : Nat)
    (a b c : List (Fp p)) : Except Fault (List (Fp p)) :=
  if ¬(a.length = b.length ∧ b.length = c.length) then
    .error (.rowCountsDiffer a.length b.length c.length)
  else if domain.size < a.length then
    .error (.rowsExceedDomain a.length domain.size)
  else
    let products :=
      (domain.toCoset workers a).zipWith (· * ·) (domain.toCoset workers b)
    let divided := (products.zipWith (· - ·) (domain.toCoset workers c)).map
      (· * domain.vanishingInvOnCoset)
    .ok (scaleBy
      (powerTable workers domain.sizeInv domain.shiftInv domain.size)
      (domain.ifftUnnormalized divided))

end EvaluationDomain

end RankOne
