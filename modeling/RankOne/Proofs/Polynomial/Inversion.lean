import RankOne.Proofs.Curve.ScalarField
import RankOne.Proofs.Polynomial.Quotient

/-!
# Transforms that undo each other

The inverse transform is the forward transform with the inverse generator, and
it leaves out the division by the number of points. After the forward transform
it therefore gives back the vector that often. The transforms over the coset put
the powers of the shift on one side and take them away on the other, together
with the number of points, so that each undoes the other.

All transforms fill their vector up with zeros first, and these zeros are given
back.

## Main results

* `EvaluationDomain.cosetFft_eq_map_eval` — the coset transform lists values on
  the coset;
* `EvaluationDomain.ifftUnnormalized_fft` — the unnormalised inverse;
* `EvaluationDomain.cosetIfft_cosetFft`, `EvaluationDomain.cosetFft_cosetIfft` —
  both inverses over the coset;
* `EvaluationDomain.transforms_undone` — all of this for every domain.
-/

namespace RankOne

namespace EvaluationDomain

variable {p : Nat} [Fact p.Prime] {domain : EvaluationDomain p} {workers : Nat}

/-- The coset transform is the transform of the coefficients times the powers of
the shift. -/
private theorem cosetFft_eq_fft (values : List (Fp p)) :
    domain.cosetFft workers values =
      domain.fft ((List.range domain.size).map fun i =>
        values.getD i 0 * domain.shift ^ i) := by
  rw [cosetFft, powerTable_eq_map, resize_eq_map, scaleBy_map_range]
  simp only [one_mul]

section Lawful

variable (h : domain.Lawful)
include h

/-- The inverse transform undoes the forward one, but for the number of
points. -/
theorem ifftUnnormalized_fft (values : List (Fp p)) :
    domain.ifftUnnormalized (domain.fft values) =
      (List.range domain.size).map fun i =>
        (domain.size : Fp p) * values.getD i 0 := by
  have hInv : domain.generatorInv * domain.generator = 1 := by
    rw [mul_comm, h.generator_inv]
  rw [ifftUnnormalized_eq_map h, fft_eq_map h]
  refine List.map_congr_left fun i hi => ?_
  rw [← sum_transform_mul_pow h.primitive_inv hInv (values.getD · 0)
    (List.mem_range.mp hi)]
  refine Finset.sum_congr rfl fun k hk => ?_
  rw [getD_map_range _ (Finset.mem_range.mp hk)]

/-! ## The coset -/

/-- The coset transform lists the values of the polynomial at the points of the
coset. -/
theorem cosetFft_eq_map_eval {values : List (Fp p)}
    (hFit : values.length ≤ domain.size) :
    domain.cosetFft workers values = (List.range domain.size).map fun i =>
      evaluatePolynomial values (domain.shift * domain.generator ^ i) := by
  rw [cosetFft_eq_fft, fft_eq_map h]
  refine List.map_congr_left fun i _ => ?_
  rw [evaluatePolynomial_eq_sum_of_le hFit]
  refine Finset.sum_congr rfl fun k hk => ?_
  rw [getD_map_range _ (Finset.mem_range.mp hk), mul_pow]
  ring

/-- The inverse coset transform undoes the coset transform. -/
theorem cosetIfft_cosetFft (values : List (Fp p)) :
    domain.cosetIfft workers (domain.cosetFft workers values) =
      resize 0 domain.size values := by
  have hUnshift : ∀ i : Nat, domain.shift ^ i * domain.shiftInv ^ i = 1 := by
    intro i
    rw [← mul_pow, h.shift_inv, one_pow]
  rw [cosetFft_eq_fft, cosetIfft, ifftUnnormalized_fft h, powerTable_eq_map,
    scaleBy_map_range, resize_eq_map]
  refine List.map_congr_left fun i hi => ?_
  rw [getD_map_range _ (List.mem_range.mp hi)]
  calc
    (domain.size : Fp p) * (values.getD i 0 * domain.shift ^ i) *
        (domain.sizeInv * domain.shiftInv ^ i)
      = values.getD i 0 * ((domain.size : Fp p) * domain.sizeInv) *
          (domain.shift ^ i * domain.shiftInv ^ i) := by ring
    _ = values.getD i 0 := by rw [h.size_inv, hUnshift, mul_one, mul_one]

/-- The coset transform undoes the inverse coset transform. -/
theorem cosetFft_cosetIfft (values : List (Fp p)) :
    domain.cosetFft workers (domain.cosetIfft workers values) =
      resize 0 domain.size values := by
  rw [cosetFft_eq_map_eval h (length_cosetIfft values).le, resize_eq_map]
  exact List.map_congr_left fun i hi =>
    eval_cosetIfft h values (List.mem_range.mp hi)

end Lawful

/-! ## Vectors that fit -/

/-- For every domain and every vector of at most as many entries as there are
points: the coset transform lists the values of the polynomial with these
coefficients at the points `g·ωⁱ`; the unnormalised inverse transform after the
transform multiplies by the number of points; and the two transforms over the
coset undo each other, in either order. What comes back is the vector, filled up
with zeros. -/
theorem transforms_undone [TwoAdic p] [LawfulTwoAdic p] {size : Nat}
    (hDomain : ofSize p size = .ok domain) (workers : Nat)
    {values : List (Fp p)} (hFit : values.length ≤ domain.size) :
    let padded := values ++ List.replicate (domain.size - values.length) 0
    (domain.cosetFft workers values).length = domain.size ∧
      (∀ i < domain.size, (domain.cosetFft workers values)[i]? =
        some (evaluatePolynomial values (domain.shift *
          domain.generator ^ i))) ∧
      domain.ifftUnnormalized (domain.fft values) =
        padded.map ((domain.size : Fp p) * ·) ∧
      domain.cosetIfft workers (domain.cosetFft workers values) = padded ∧
      domain.cosetFft workers (domain.cosetIfft workers values) = padded := by
  intro padded
  obtain ⟨h, -⟩ := ofSize_lawful hDomain
  have hPadded : resize 0 domain.size values = padded := by
    rw [resize, List.take_of_length_le hFit]
  refine ⟨?_, fun i hi => ?_, ?_, ?_, ?_⟩
  · rw [cosetFft_eq_map_eval h hFit, List.length_map, List.length_range]
  · rw [cosetFft_eq_map_eval h hFit, List.getElem?_map, List.getElem?_range hi,
      Option.map_some]
  · rw [ifftUnnormalized_fft h, ← hPadded, resize_eq_map, List.map_map]
    rfl
  · rw [cosetIfft_cosetFft h, hPadded]
  · rw [cosetFft_cosetIfft h, hPadded]

/-- Over four points in the scalar field of BLS12-381 the transforms undo each
other on two entries, and two zeros are filled in. -/
theorem transforms_undone_two_entries :
    ∃ domain : EvaluationDomain Bls12381.r, ofSize Bls12381.r 3 = .ok domain ∧
      domain.size = 4 ∧
      (domain.cosetFft 8 [5, 7])[1]? =
        some (5 + 7 * (domain.shift * domain.generator)) ∧
      domain.ifftUnnormalized (domain.fft [5, 7]) = [20, 28, 0, 0] ∧
      domain.cosetIfft 8 (domain.cosetFft 8 [5, 7]) = [5, 7, 0, 0] ∧
      domain.cosetFft 8 (domain.cosetIfft 8 [5, 7]) = [5, 7, 0, 0] := by
  obtain ⟨domain, hDomain⟩ : ∃ domain, ofSize Bls12381.r 3 = .ok domain :=
    ⟨_, rfl⟩
  have hSize : domain.size = 4 := by
    rw [size, (ofSize_lawful hDomain).2]
    rfl
  have hFit : ([5, 7] : List (Fp Bls12381.r)).length ≤ domain.size := by
    rw [hSize]
    decide
  obtain ⟨-, hCoset, hUnnormalized, hForth, hBack⟩ :=
    transforms_undone hDomain 8 hFit
  rw [hSize] at hCoset hUnnormalized hForth hBack
  refine ⟨domain, hDomain, hSize, ?_, ?_, hForth, hBack⟩
  · rw [hCoset 1 (by decide), pow_one]
    congr 1
    show (0 * _ + 7) * _ + 5 = _
    ring
  · rw [hUnnormalized]
    decide +kernel

end EvaluationDomain

end RankOne
