import RankOne.Polynomial.Transform
import RankOne.Proofs.Field.Ring

/-!
# Coefficient lists

A list of coefficients denotes a polynomial, lowest degree first, and
`evaluatePolynomial` evaluates it. A list of `n` coefficients denotes a
polynomial of degree less than `n`.
-/

namespace RankOne

open Polynomial

variable {p : Nat}

/-- A list written by its entries has these entries. -/
theorem getD_map_range {α : Type} (f : Nat → α) {n i : Nat} (hi : i < n)
    (d : α) :
    ((List.range n).map f).getD i d = f i := by
  rw [List.getD_eq_getElem?_getD, List.getElem?_map, List.getElem?_range hi]
  rfl

/-! ## Coefficients -/

section Coefficients

variable [Modulus p]

/-- The polynomial with the given coefficients, lowest degree first. -/
noncomputable def polynomialOf : List (Fp p) → (Fp p)[X]
  | [] => 0
  | c :: rest => polynomialOf rest * X + C c

theorem eval_polynomialOf (coefficients : List (Fp p)) (x : Fp p) :
    (polynomialOf coefficients).eval x = evaluatePolynomial coefficients x := by
  induction coefficients with
  | nil => simp [polynomialOf, evaluatePolynomial]
  | cons c rest ih =>
      simp only [polynomialOf, eval_add, eval_mul, eval_X, eval_C, ih]
      rfl

theorem coeff_polynomialOf (coefficients : List (Fp p)) (i : Nat) :
    (polynomialOf coefficients).coeff i = coefficients.getD i 0 := by
  induction coefficients generalizing i with
  | nil => simp [polynomialOf]
  | cons c rest ih =>
      cases i with
      | zero => simp [polynomialOf]
      | succ i => simp [polynomialOf, ih]

theorem degree_polynomialOf_lt (coefficients : List (Fp p)) :
    (polynomialOf coefficients).degree < coefficients.length := by
  rw [degree_lt_iff_coeff_zero]
  intro i hi
  rw [coeff_polynomialOf, List.getD_eq_default _ _ hi]

/-- Coefficients that are zero may be cut off. -/
theorem polynomialOf_take {coefficients : List (Fp p)} {n : Nat}
    (h : ∀ i, n ≤ i → coefficients.getD i 0 = 0) :
    polynomialOf (coefficients.take n) = polynomialOf coefficients := by
  ext1 i
  rw [coeff_polynomialOf, coeff_polynomialOf, List.getD_eq_getElem?_getD,
    List.getElem?_take]
  split
  · rw [List.getD_eq_getElem?_getD]
  · next hCut => rw [h i (Nat.le_of_not_lt hCut), Option.getD_none]

theorem evaluatePolynomial_eq_sum (coefficients : List (Fp p)) (x : Fp p) :
    evaluatePolynomial coefficients x =
      ∑ i ∈ Finset.range coefficients.length,
        coefficients.getD i 0 * x ^ i := by
  induction coefficients with
  | nil => rfl
  | cons c rest ih =>
      rw [List.length_cons, Finset.sum_range_succ']
      simp only [List.getD_cons_succ, List.getD_cons_zero, pow_zero, mul_one,
        pow_succ, ← mul_assoc, ← Finset.sum_mul, ← ih]
      rfl

/-- The terms behind the end of the list are zero. -/
theorem evaluatePolynomial_eq_sum_of_le {coefficients : List (Fp p)} {n : Nat}
    (h : coefficients.length ≤ n) (x : Fp p) :
    evaluatePolynomial coefficients x = ∑ i ∈ Finset.range n,
      coefficients.getD i 0 * x ^ i := by
  rw [evaluatePolynomial_eq_sum]
  refine Finset.sum_subset (Finset.range_mono h) fun i _ hi => ?_
  rw [List.getD_eq_default _ _ (by simpa using hi), zero_mul]

/-- A list written by its entries evaluates to the sum of its terms. -/
theorem evaluatePolynomial_map_range (n : Nat) (f : Nat → Fp p) (x : Fp p) :
    evaluatePolynomial ((List.range n).map f) x = ∑ i ∈ Finset.range n,
      f i * x ^ i := by
  rw [evaluatePolynomial_eq_sum, List.length_map, List.length_range]
  refine Finset.sum_congr rfl fun i hi => ?_
  rw [getD_map_range f (Finset.mem_range.mp hi)]

end Coefficients

end RankOne
