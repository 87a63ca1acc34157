import RankOne.Proofs.Curve.ScalarField
import RankOne.Proofs.Polynomial.Quotient

/-!
# The quotient modulo `Xⁿ + 1`

Nothing about the rows enters the computation of the quotient: it only looks at
the coset, whose points are the roots of `Xⁿ + 1`. So for all rows
`A·B - C ≡ H·(Xⁿ - 1)` modulo `Xⁿ + 1`. Whether the two are equal is decided by
the points of the domain, where the right side vanishes and the left side is
`a·b - c`.
-/

namespace RankOne

open Polynomial

namespace EvaluationDomain

variable {p : Nat} [Fact p.Prime] {domain : EvaluationDomain p}

/-! ## Interpolating polynomials -/

/-- A polynomial interpolates a row vector, continued by zeros. -/
structure Interpolates (domain : EvaluationDomain p) (values : List (Fp p))
    (f : (Fp p)[X]) : Prop where
  degree_lt : f.degree < domain.size
  eval_point : ∀ i < domain.size,
    f.eval (domain.generator ^ i) = values.getD i 0

section Points

variable (h : domain.Lawful)
include h

/-- The inverse transform yields an interpolating polynomial. -/
private theorem interpolates_interpolant (values : List (Fp p)) :
    domain.Interpolates values (domain.interpolant values) where
  degree_lt := degree_interpolant_lt values
  eval_point := fun _ hi => eval_interpolant h values hi

/-- There is only one. -/
private theorem Interpolates.eq_interpolant {values : List (Fp p)}
    {f : (Fp p)[X]} (hf : domain.Interpolates values f) :
    f = domain.interpolant values := by
  have hCard : (Finset.range domain.size).card = domain.size :=
    Finset.card_range _
  refine Polynomial.eq_of_degrees_lt_of_eval_index_eq
    (Finset.range domain.size) h.injOn_points
    (by rw [hCard]; exact hf.degree_lt)
      (by rw [hCard]; exact degree_interpolant_lt values) ?_
  intro i hi
  have hi : i < domain.size := Finset.mem_range.mp hi
  rw [hf.eval_point i hi, eval_interpolant h values hi]

/-! ## Congruence and equality -/

variable {workers : Nat} {a b c quotient : List (Fp p)}
  (hQuotient : domain.quotient workers a b c = .ok quotient)
include hQuotient

/-- On the coset, where `Xⁿ - 1` is minus two, the product of the quotient with
it is `A·B - C`. -/
theorem X_pow_add_one_dvd :
    X ^ domain.size + 1 ∣
      domain.interpolant a * domain.interpolant b - domain.interpolant c -
      polynomialOf quotient * (X ^ domain.size - 1) := by
  have hDvd := X_pow_sub_C_dvd (r := -1) domain.size_pos h.injOn_coset
    (f := domain.interpolant a * domain.interpolant b - domain.interpolant c -
      polynomialOf quotient *
        (X ^ domain.size - 1)) (fun i _ => h.coset_pow_size i) ?_
  · rwa [C_neg, C_1, sub_neg_eq_add] at hDvd
  · intro i hi
    rw [eval_sub, ← (eval_quotient_coset h hQuotient).2 i hi, eval_mul,
      eval_sub, eval_pow, eval_X, eval_one, h.coset_pow_size_sub_one, sub_self]

/-- The product of the quotient with `Xⁿ - 1` is `A·B - C` exactly when all rows
satisfy `a·b = c`. -/
theorem eq_mul_vanishing_iff :
    domain.interpolant a * domain.interpolant b - domain.interpolant c =
        polynomialOf quotient * (X ^ domain.size - 1) ↔
      ∀ i < domain.size, a.getD i 0 * b.getD i 0 = c.getD i 0 := by
  constructor
  · intro hEqual i hi
    have hValue := congrArg (eval (domain.generator ^ i)) hEqual
    rw [eval_mul, eval_sub, eval_mul, eval_sub, eval_pow, eval_X, eval_one,
      h.generator_pow_size, sub_self, mul_zero, eval_interpolant h a hi,
      eval_interpolant h b hi, eval_interpolant h c hi] at hValue
    exact sub_eq_zero.mp hValue
  · intro hRows
    exact (quotient_mul_vanishing h hQuotient hRows).1.symm

end Points

/-! ## Rows that fit -/

/-- The rows that were filled up satisfy `0·0 = 0`. -/
private theorem forall_rows_iff {a b c : List (Fp p)} {n : Nat}
    (hab : a.length = b.length) (hbc : b.length = c.length)
    (hFit : a.length ≤ n) :
    (∀ i < n, a.getD i 0 * b.getD i 0 = c.getD i 0) ↔
      ∀ i < a.length, a.getD i 0 * b.getD i 0 = c.getD i 0 := by
  constructor
  · intro hRows i hi
    exact hRows i (Nat.lt_of_lt_of_le hi hFit)
  · intro hRows i _
    by_cases hi : i < a.length
    · exact hRows i hi
    · rw [List.getD_eq_default a _ (by omega),
        List.getD_eq_default c _ (by omega), zero_mul]

/-- For a domain of `n` points and row vectors of one length at most `n` there
is a quotient `H` of `n` coefficients. Always `A·B - C ≡ H·(Xⁿ - 1)` modulo
`Xⁿ + 1`; equality holds exactly when every row satisfies `a·b = c`, and then
the last coefficient is zero. -/
theorem quotient_identity [TwoAdic p] [LawfulTwoAdic p] {size : Nat}
    (hDomain : ofSize p size = .ok domain) (workers : Nat) {a b c : List (Fp p)}
    (hab : a.length = b.length) (hbc : b.length = c.length)
    (hFit : a.length ≤ domain.size) {A B C : (Fp p)[X]}
    (hA : domain.Interpolates a A) (hB : domain.Interpolates b B)
    (hC : domain.Interpolates c C) :
    ∃ quotient : List (Fp p), domain.quotient workers a b c = .ok quotient ∧
      quotient.length = domain.size ∧
      X ^ domain.size + 1 ∣
        (A * B - C) - polynomialOf quotient * (X ^ domain.size - 1) ∧
      (A * B - C = polynomialOf quotient * (X ^ domain.size - 1) ↔
        ∀ i < a.length, a.getD i 0 * b.getD i 0 = c.getD i 0) ∧
      ((∀ i < a.length, a.getD i 0 * b.getD i 0 = c.getD i 0) →
        quotient.getD (domain.size - 1) 0 = 0) := by
  obtain ⟨h, -⟩ := ofSize_lawful hDomain
  obtain ⟨quotient, hQuotient⟩ := quotient_eq_ok_iff.mpr ⟨hab, hbc, hFit⟩
  have hRows := forall_rows_iff hab hbc hFit
  rw [hA.eq_interpolant h, hB.eq_interpolant h, hC.eq_interpolant h]
  refine ⟨quotient, hQuotient, (eval_quotient_coset h hQuotient).1,
    X_pow_add_one_dvd h hQuotient,
      (eq_mul_vanishing_iff h hQuotient).trans hRows, ?_⟩
  intro hSatisfied
  exact (quotient_mul_vanishing h hQuotient (hRows.mpr hSatisfied)).2

/-- Over two points in the scalar field of BLS12-381, the second of the rows
`1·3 = 3` and `2·4 = 9` is violated: the polynomials are congruent and not
equal. -/
theorem quotient_identity_two_rows :
    ∃ (domain : EvaluationDomain Bls12381.r) (quotient : List (Fp Bls12381.r)),
      ofSize Bls12381.r 2 = .ok domain ∧ domain.size = 2 ∧
      domain.quotient 8 [1, 2] [3, 4] [3, 9] = .ok quotient ∧
      X ^ domain.size + 1 ∣
        domain.interpolant [1, 2] * domain.interpolant [3, 4] -
        domain.interpolant [3, 9] - polynomialOf quotient *
          (X ^ domain.size - 1) ∧
      domain.interpolant [1, 2] *
        domain.interpolant [3, 4] - domain.interpolant [3, 9] ≠
        polynomialOf quotient * (X ^ domain.size - 1) := by
  obtain ⟨domain, hDomain⟩ : ∃ domain, ofSize Bls12381.r 2 = .ok domain :=
    ⟨_, rfl⟩
  obtain ⟨h, hLog⟩ := ofSize_lawful hDomain
  have hSize : domain.size = 2 := by
    rw [size, hLog]
    rfl
  obtain ⟨quotient, hQuotient, -, hCongruent, hEqual, -⟩ :=
    quotient_identity hDomain 8 (a := [1, 2]) (b := [3, 4])
      (c := [3, 9]) rfl rfl hSize.ge
      (interpolates_interpolant h _) (interpolates_interpolant h _)
        (interpolates_interpolant h _)
  refine ⟨domain, quotient, hDomain, hSize, hQuotient, hCongruent, ?_⟩
  intro hSame
  exact absurd (hEqual.mp hSame 1 (by decide)) (by decide +kernel)

end EvaluationDomain

end RankOne
