import RankOne.Proofs.Outcome
import RankOne.Proofs.Polynomial.Inversion

/-!
# The quotient in plain steps

The quotient is computed with transforms that leave out the normalisation, and
two tables make up for it together with the powers of the shift. In plain steps
one would interpolate the rows, evaluate the polynomials on the coset, divide by
minus two at each of its points, and interpolate there. Both ways give the same
coefficients for all rows, whether they are satisfied or not.
-/

namespace RankOne

namespace EvaluationDomain

variable {p : Nat}

section Plain

variable [Modulus p]

/-- The values on the coset of the polynomial that interpolates the rows. -/
def onCoset (domain : EvaluationDomain p) (workers : Nat)
    (rows : List (Fp p)) : List (Fp p) :=
  domain.cosetFft workers (domain.ifft (resize 0 domain.size rows))

/-- The coefficients of `(A·B - C) / (Xⁿ - 1)` in plain steps: the rows are
filled up, interpolated and evaluated on the coset, the value at each point is
divided by minus two, and the results are interpolated on the coset. -/
def plainQuotient (domain : EvaluationDomain p) (workers : Nat)
    (a b c : List (Fp p)) : List (Fp p) :=
  domain.cosetIfft workers ((List.range domain.size).map fun i =>
    ((domain.onCoset workers a).getD i 0 * (domain.onCoset workers b).getD i 0 -
      (domain.onCoset workers c).getD i 0) / ((-2 : Int) : Fp p))

/-- Interpolation fills up by itself. -/
private theorem ifft_resize (domain : EvaluationDomain p) (rows : List (Fp p)) :
    domain.ifft (resize 0 domain.size rows) = domain.ifft rows := by
  have hTwice : resize 0 domain.size (resize 0 domain.size rows) =
      resize 0 domain.size rows :=
    resize_of_length (length_resize _ _ _)
  rw [ifft, ifftUnnormalized, hTwice, ifft, ifftUnnormalized]

private theorem length_onCoset (domain : EvaluationDomain p) {workers : Nat}
    (rows : List (Fp p)) :
    (domain.onCoset workers rows).length = domain.size :=
  length_transform _ _ _ (length_resize _ _ _)

end Plain

variable [Fact p.Prime] {domain : EvaluationDomain p} {workers : Nat}

/-- Normalising and shifting with one table is normalising first and shifting
then. -/
theorem toCoset_eq_cosetFft (h : domain.Lawful) (rows : List (Fp p)) :
    domain.toCoset workers rows =
      domain.cosetFft workers (domain.ifft rows) := by
  rw [toCoset_eq_map h, cosetFft_eq_map_eval h (length_ifft rows).le]

/-- The rows lead to the same values on the coset in either way. -/
private theorem toCoset_eq_onCoset (h : domain.Lawful) (rows : List (Fp p)) :
    domain.toCoset workers rows =
      (List.range domain.size).map fun i =>
        (domain.onCoset workers rows).getD i 0 := by
  rw [← resize_eq_map, resize_of_length (domain.length_onCoset rows),
    toCoset_eq_cosetFft h, onCoset, ifft_resize]

/-- Multiplying by the division constant is dividing by minus two. -/
private theorem Lawful.mul_vanishingInvOnCoset (h : domain.Lawful) (x : Fp p) :
    x * domain.vanishingInvOnCoset = x / ((-2 : Int) : Fp p) := by
  have hTwo : ((-2 : Int) : Fp p) = -2 := by push_cast; rfl
  rw [hTwo, eq_div_iff (neg_ne_zero.mpr h.two_ne_zero), mul_assoc,
    h.vanishingInvOnCoset_mul_neg_two, mul_one]

/-- For every domain and all row vectors of one length that fit, satisfied or
not, the quotient is the one in plain steps. A residue is held as its canonical
integer, so the integers are the same as well. -/
theorem quotient_eq_plain [TwoAdic p] [LawfulTwoAdic p] {size : Nat}
    (hDomain : ofSize p size = .ok domain) (workers : Nat)
    {a b c : List (Fp p)} (hab : a.length = b.length)
    (hbc : b.length = c.length) (hFit : a.length ≤ domain.size) :
    domain.quotient workers a b c =
      .ok (domain.plainQuotient workers a b c) := by
  obtain ⟨h, -⟩ := ofSize_lawful hDomain
  unfold quotient
  rw [if_neg (not_not_intro ⟨hab, hbc⟩), if_neg (Nat.not_lt.mpr hFit)]
  simp only [toCoset_eq_onCoset h, List.zipWith_map, List.zipWith_self,
    List.map_map, Function.comp_def, h.mul_vanishingInvOnCoset]
  rfl

/-- Over two points in the scalar field of BLS12-381, where the second of the
rows `1·3 = 3` and `2·4 = 9` is violated and the last coefficient does not
vanish. -/
theorem quotient_eq_plain_violated :
    ∃ domain : EvaluationDomain Bls12381.r, ofSize Bls12381.r 2 = .ok domain ∧
      domain.quotient 8 [1, 2] [3, 4] [3, 9] =
        .ok (domain.plainQuotient 8 [1, 2] [3, 4] [3, 9]) ∧
      (domain.plainQuotient 8 [1, 2] [3, 4] [3, 9])[1]? ≠ some 0 := by
  have hRun : ((ofSize Bls12381.r 2).toOption.any fun domain =>
      decide (domain.size = 2 ∧
        (domain.plainQuotient 8 [1, 2] [3, 4] [3, 9])[1]? ≠
          some 0)) = true := by
    decide +kernel
  simp only [Option.any_eq_true, toOption_eq_some, decide_eq_true_eq] at hRun
  obtain ⟨domain, hDomain, hSize, hLast⟩ := hRun
  exact ⟨domain, hDomain, quotient_eq_plain hDomain 8 rfl rfl hSize.ge, hLast⟩

end EvaluationDomain

end RankOne
