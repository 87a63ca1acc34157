import RankOne.Polynomial.Quotient
import RankOne.Proofs.Polynomial.Domain

/-!
# The quotient of satisfied rows

Row vectors are interpolated over a domain. On the coset, where the vanishing
polynomial is minus two, the quotient takes the value of `A·B - C` divided by
minus two. Two polynomials of degree less than the number of points that agree
on the coset are equal, so for satisfied rows the quotient is the exact one.
-/

namespace RankOne

open Polynomial

variable {p : Nat}

/-! ## Lists of one length -/

section Lists

theorem scaleBy_map_range (n : Nat) (f g : Nat → Fp p) :
    scaleBy ((List.range n).map g) ((List.range n).map f) =
      (List.range n).map fun i => f i * g i := by
  rw [scaleBy, List.zipWith_map, List.zipWith_self]

variable [Modulus p]

private theorem getD_resize (n : Nat) (values : List (Fp p)) {i : Nat}
    (hi : i < n) :
    (resize 0 n values).getD i 0 = values.getD i 0 := by
  by_cases hValue : i < values.length
  · have hTake : i < (values.take n).length := by
      rw [List.length_take]
      omega
    rw [resize, List.getD_append _ _ _ _ hTake, List.getD_eq_getElem _ _ hTake,
      List.getD_eq_getElem _ _ hValue, List.getElem_take]
  · have hShort : values.length ≤ i := Nat.le_of_not_lt hValue
    have hTake : values.take n = values := List.take_of_length_le (by omega)
    rw [resize, hTake, List.getD_append_right _ _ _ _ hShort,
      List.getD_eq_default _ _ hShort]
    exact List.getD_replicate 0 (by omega)

/-- A list of the right length stays as it is. -/
theorem resize_of_length {α : Type} {default : α} {n : Nat} {values : List α}
    (h : values.length = n) : resize default n values = values := by
  rw [resize, h, Nat.sub_self, List.replicate_zero, List.append_nil,
    List.take_of_length_le h.le]

/-- Filling up continues a list by zeros. -/
theorem resize_eq_map (n : Nat) (values : List (Fp p)) :
    resize 0 n values = (List.range n).map fun i => values.getD i 0 := by
  refine List.ext_getElem (by simp) fun i hi hi' => ?_
  have hBound : i < n := by simpa using hi
  rw [List.getElem_map, List.getElem_range, ← getD_resize n values hBound,
    List.getD_eq_getElem _ _ hi]

private theorem evaluatePolynomial_resize (n : Nat) (values : List (Fp p))
    (x : Fp p) :
    evaluatePolynomial (resize 0 n values) x =
      ∑ j ∈ Finset.range n, values.getD j 0 * x ^ j := by
  rw [resize_eq_map, evaluatePolynomial_map_range]

end Lists

namespace EvaluationDomain

/-! ## Lengths -/

section Lengths

variable [Modulus p] {domain : EvaluationDomain p} {workers : Nat}

private theorem length_ifftUnnormalized (values : List (Fp p)) :
    (domain.ifftUnnormalized values).length = domain.size :=
  length_transform _ _ _ (length_resize _ _ _)

theorem length_ifft (values : List (Fp p)) :
    (domain.ifft values).length = domain.size := by
  rw [ifft, List.length_map, length_ifftUnnormalized]

theorem length_cosetIfft (values : List (Fp p)) :
    (domain.cosetIfft workers values).length = domain.size := by
  rw [cosetIfft, powerTable_eq_map, scaleBy, List.length_zipWith,
    length_ifftUnnormalized, List.length_map, List.length_range, min_self]

/-- The number of workers has no part in a quotient. -/
theorem quotient_workers (domain : EvaluationDomain p)
    (workers workers' : Nat) (a b c : List (Fp p)) :
    domain.quotient workers a b c = domain.quotient workers' a b c := by
  unfold quotient toCoset
  simp only [powerTable_eq_map]

/-- A quotient exists exactly for vectors of one length that the domain has
points for. -/
theorem quotient_eq_ok_iff {a b c : List (Fp p)} :
    (∃ quotient, domain.quotient workers a b c = .ok quotient) ↔
      a.length = b.length ∧ b.length = c.length ∧ a.length ≤ domain.size := by
  unfold quotient
  split
  · next hDiffer =>
      constructor
      · rintro ⟨_, h⟩
        cases h
      · rintro ⟨hab, hbc, _⟩
        exact absurd ⟨hab, hbc⟩ hDiffer
  · next hSame =>
      have hLengths : a.length = b.length ∧ b.length = c.length :=
        not_not.mp hSame
      split
      · next hExceed =>
          constructor
          · rintro ⟨_, h⟩
            cases h
          · rintro ⟨_, _, hFit⟩
            omega
      · next hFit =>
          exact ⟨fun _ => ⟨hLengths.1, hLengths.2, Nat.le_of_not_lt hFit⟩,
            fun _ => ⟨_, rfl⟩⟩

/-- A quotient has one coefficient for each point. -/
theorem length_quotient {a b c quotient : List (Fp p)}
    (h : domain.quotient workers a b c = .ok quotient) :
    quotient.length = domain.size := by
  unfold EvaluationDomain.quotient at h
  split at h
  · cases h
  split at h
  · cases h
  injection h with h
  rw [← h, ← cosetIfft, length_cosetIfft]

end Lengths

/-! ## Values -/

variable [Fact p.Prime] {workers : Nat}

theorem ifftUnnormalized_eq_map {domain : EvaluationDomain p}
    (h : domain.Lawful) (values : List (Fp p)) :
    domain.ifftUnnormalized values = (List.range domain.size).map fun k =>
      ∑ j ∈ Finset.range domain.size,
        values.getD j 0 * (domain.generatorInv ^ k) ^ j := by
  have hLength : (resize 0 domain.size values).length = 2 ^ domain.logSize :=
    length_resize _ _ _
  rw [ifftUnnormalized, transform_eq_map _ _ _ hLength h.halfTurn_inv]
  exact List.map_congr_left fun k _ => evaluatePolynomial_resize _ _ _

theorem fft_eq_map {domain : EvaluationDomain p} (h : domain.Lawful)
    (values : List (Fp p)) :
    domain.fft values = (List.range domain.size).map fun k =>
      ∑ j ∈ Finset.range domain.size,
        values.getD j 0 * (domain.generator ^ k) ^ j := by
  have hLength : (resize 0 domain.size values).length = 2 ^ domain.logSize :=
    length_resize _ _ _
  rw [fft, transform_eq_map _ _ _ hLength h.halfTurn]
  exact List.map_congr_left fun k _ => evaluatePolynomial_resize _ _ _

/-- The inverse transform interpolates: its coefficients take the given values
at the points. -/
theorem eval_ifft {domain : EvaluationDomain p} (h : domain.Lawful)
    (values : List (Fp p)) {i : Nat} (hi : i < domain.size) :
    evaluatePolynomial (domain.ifft values) (domain.generator ^ i) =
      values.getD i 0 := by
  have hSum :=
    sum_transform_mul_pow h.primitive h.generator_inv (values.getD · 0) hi
  rw [ifft, ifftUnnormalized_eq_map h, List.map_map,
    evaluatePolynomial_map_range]
  calc
    ∑ k ∈ Finset.range domain.size,
        (∑ j ∈ Finset.range domain.size,
          values.getD j 0 * (domain.generatorInv ^ k) ^ j) *
          domain.sizeInv * (domain.generator ^ i) ^ k
      = domain.sizeInv * ((domain.size : Fp p) * values.getD i 0) := by
        rw [← hSum, Finset.mul_sum]
        refine Finset.sum_congr rfl fun k _ => ?_
        ring
    _ = values.getD i 0 := by
        rw [← mul_assoc, mul_comm domain.sizeInv, h.size_inv, one_mul]

/-- The inverse coset transform interpolates on the coset. -/
theorem eval_cosetIfft {domain : EvaluationDomain p} (h : domain.Lawful)
    (values : List (Fp p)) {i : Nat} (hi : i < domain.size) :
    evaluatePolynomial (domain.cosetIfft workers values) (domain.shift *
      domain.generator ^ i) =
      values.getD i 0 := by
  have hUnshift : ∀ k : Nat,
      domain.shiftInv ^ k * (domain.shift * domain.generator ^ i) ^ k =
      (domain.generator ^ i) ^ k := by
    intro k
    rw [← mul_pow, ← mul_assoc, mul_comm domain.shiftInv, h.shift_inv, one_mul]
  rw [← eval_ifft h values hi, ifft, cosetIfft, powerTable_eq_map,
    ifftUnnormalized_eq_map h, scaleBy_map_range, List.map_map,
    evaluatePolynomial_map_range, evaluatePolynomial_map_range]
  refine Finset.sum_congr rfl fun k _ => ?_
  rw [Function.comp_apply, ← hUnshift k]
  ring

/-- The fused table normalises and shifts: the values of the interpolating
polynomial on the coset. -/
theorem toCoset_eq_map {domain : EvaluationDomain p} (h : domain.Lawful)
    (values : List (Fp p)) :
    domain.toCoset workers values = (List.range domain.size).map fun i =>
      evaluatePolynomial (domain.ifft values) (domain.shift *
        domain.generator ^ i) := by
  rw [toCoset, powerTable_eq_map, ifft, ifftUnnormalized_eq_map h,
    scaleBy_map_range, fft_eq_map h, List.map_map]
  refine List.map_congr_left fun i _ => ?_
  rw [evaluatePolynomial_map_range]
  refine Finset.sum_congr rfl fun k hk => ?_
  rw [getD_map_range _ (Finset.mem_range.mp hk), mul_pow, Function.comp_apply]
  ring

/-! ## The quotient -/

/-- The polynomial that interpolates a row vector, continued by zeros. -/
noncomputable def interpolant (domain : EvaluationDomain p)
    (values : List (Fp p)) : (Fp p)[X] :=
  polynomialOf (domain.ifft values)

theorem eval_interpolant {domain : EvaluationDomain p} (h : domain.Lawful)
    (values : List (Fp p)) {i : Nat} (hi : i < domain.size) :
    (domain.interpolant values).eval (domain.generator ^ i) =
      values.getD i 0 := by
  rw [interpolant, eval_polynomialOf, eval_ifft h values hi]

theorem degree_interpolant_lt {domain : EvaluationDomain p}
    (values : List (Fp p)) :
    (domain.interpolant values).degree < domain.size := by
  have hDegree := degree_polynomialOf_lt (domain.ifft values)
  rwa [length_ifft] at hDegree

/-- On the coset the quotient is `A·B - C` divided by minus two, and it has one
coefficient for each point. -/
theorem eval_quotient_coset {domain : EvaluationDomain p} (h : domain.Lawful)
    {a b c quotient : List (Fp p)}
    (hQuotient : domain.quotient workers a b c = .ok quotient) :
    quotient.length = domain.size ∧
      ∀ i < domain.size,
        let x := domain.shift * domain.generator ^ i
        (polynomialOf quotient).eval x * -2 =
          (domain.interpolant a *
            domain.interpolant b - domain.interpolant c).eval x := by
  refine ⟨length_quotient hQuotient, ?_⟩
  unfold EvaluationDomain.quotient at hQuotient
  split at hQuotient
  · cases hQuotient
  split at hQuotient
  · cases hQuotient
  dsimp only at hQuotient
  injection hQuotient with hQuotient
  rw [← cosetIfft] at hQuotient
  subst hQuotient
  intro i hi x
  rw [eval_polynomialOf, eval_cosetIfft h _ hi, toCoset_eq_map h,
    toCoset_eq_map h, toCoset_eq_map h, List.zipWith_map, List.zipWith_self,
    List.zipWith_map, List.zipWith_self, List.map_map]
  simp only [getD_map_range _ hi, Function.comp_apply, eval_sub, eval_mul,
    interpolant, eval_polynomialOf]
  rw [mul_assoc, h.vanishingInvOnCoset_mul_neg_two, mul_one]

/-- A polynomial of degree less than the number of points is determined by its
values on the coset. -/
private theorem eq_of_eval_coset_eq {domain : EvaluationDomain p}
    (h : domain.Lawful) {f g : (Fp p)[X]} (hf : f.degree < domain.size)
    (hg : g.degree < domain.size)
    (hEval : ∀ i < domain.size, f.eval (domain.shift * domain.generator ^ i) =
      g.eval (domain.shift * domain.generator ^ i)) : f = g := by
  have hCard : (Finset.range domain.size).card = domain.size :=
    Finset.card_range _
  refine Polynomial.eq_of_degrees_lt_of_eval_index_eq
    (Finset.range domain.size) h.injOn_coset
    (by rwa [hCard]) (by rwa [hCard]) ?_
  intro i hi
  exact hEval i (Finset.mem_range.mp hi)

/-- A polynomial that vanishes at `n` points with the `n`-th power `r` is a
multiple of `Xⁿ - r`. -/
theorem X_pow_sub_C_dvd {n : Nat} (hn : 0 < n) {points : Nat → Fp p} {r : Fp p}
    (hInj : Set.InjOn points (Finset.range n : Set Nat))
    (hPoints : ∀ i < n, points i ^ n = r) {f : (Fp p)[X]}
    (hRoots : ∀ i < n, f.eval (points i) = 0) : X ^ n - C r ∣ f := by
  have hMonic : (X ^ n - C r : (Fp p)[X]).Monic := monic_X_pow_sub_C r hn.ne'
  have hDegree : (X ^ n - C r : (Fp p)[X]).degree = n := degree_X_pow_sub_C hn r
  rw [← modByMonic_eq_zero_iff_dvd hMonic]
  have hCard : (Finset.range n).card = n := Finset.card_range _
  refine Polynomial.eq_zero_of_degree_lt_of_eval_index_eq_zero
    (Finset.range n) hInj ?_ ?_
  · rw [hCard, ← hDegree]
    exact degree_modByMonic_lt f hMonic
  · intro i hi
    have hi : i < n := Finset.mem_range.mp hi
    have hSplit :=
      congrArg (eval (points i)) (modByMonic_add_div f (X ^ n - C r))
    have hVanishes : (X ^ n - C r : (Fp p)[X]).eval (points i) = 0 := by
      rw [eval_sub, eval_pow, eval_X, eval_C, hPoints i hi, sub_self]
    rwa [eval_add, eval_mul, hVanishes, zero_mul, add_zero, hRoots i hi]
      at hSplit

/-- A polynomial that vanishes at all points is a multiple of the vanishing
polynomial. -/
private theorem exists_mul_vanishing {domain : EvaluationDomain p}
    (h : domain.Lawful) (f : (Fp p)[X])
    (hRoots : ∀ i < domain.size, f.eval (domain.generator ^ i) = 0) :
    ∃ q : (Fp p)[X], q * (X ^ domain.size - 1) = f := by
  have hDvd := X_pow_sub_C_dvd domain.size_pos h.injOn_points
    (fun i _ => h.generator_pow_size i) hRoots
  rw [C_1] at hDvd
  obtain ⟨q, hq⟩ := hDvd
  exact ⟨q, by rw [hq, mul_comm]⟩

/-- For rows that satisfy `a·b = c` the quotient divides without remainder, and
its last coefficient is zero. -/
theorem quotient_mul_vanishing {domain : EvaluationDomain p} (h : domain.Lawful)
    {a b c quotient : List (Fp p)}
    (hQuotient : domain.quotient workers a b c = .ok quotient)
    (hRows : ∀ i < domain.size, a.getD i 0 * b.getD i 0 = c.getD i 0) :
    polynomialOf quotient * (X ^ domain.size - 1) =
        domain.interpolant a * domain.interpolant b - domain.interpolant c ∧
      quotient.getD (domain.size - 1) 0 = 0 := by
  let f := domain.interpolant a * domain.interpolant b - domain.interpolant c
  have hRoots : ∀ i < domain.size, f.eval (domain.generator ^ i) = 0 := by
    intro i hi
    simp only [f, eval_sub, eval_mul, eval_interpolant h _ hi]
    rw [hRows i hi, sub_self]
  obtain ⟨q, hq⟩ := exists_mul_vanishing h f hRoots
  have hPos := domain.size_pos
  have hNatDegree : ∀ values : List (Fp p),
      (domain.interpolant values).natDegree ≤ domain.size - 1 := by
    intro values
    rw [natDegree_le_iff_coeff_eq_zero]
    intro i hi
    exact (degree_lt_iff_coeff_zero _ _).mp
      (degree_interpolant_lt values) i (by omega)
  have hfDegree : f.natDegree ≤ (domain.size - 1) + (domain.size - 1) := by
    refine (natDegree_sub_le _ _).trans (max_le ?_ ?_)
    · exact natDegree_mul_le.trans
        (Nat.add_le_add (hNatDegree a) (hNatDegree b))
    · exact (hNatDegree c).trans (Nat.le_add_right _ _)
  -- The factor has degree at most `n - 2`: the product has degree at most
  -- `2n - 2`.
  have hqCoeff : ∀ i, domain.size - 1 ≤ i → q.coeff i = 0 := by
    intro i hi
    by_cases hZero : q = 0
    · rw [hZero, coeff_zero]
    · have hMonic : (X ^ domain.size - 1 : (Fp p)[X]).Monic := by
        rw [← C_1]
        exact monic_X_pow_sub_C 1 hPos.ne'
      have hVanishing :
          (X ^ domain.size - 1 : (Fp p)[X]).natDegree = domain.size := by
        rw [← C_1]
        exact natDegree_X_pow_sub_C
      have hSum := hMonic.natDegree_mul' hZero
      rw [mul_comm, hq, hVanishing] at hSum
      exact coeff_eq_zero_of_natDegree_lt (by omega)
  have hqDegree : q.degree < domain.size := by
    rw [degree_lt_iff_coeff_zero]
    intro i hi
    exact hqCoeff i (by omega)
  obtain ⟨hLength, hCoset⟩ := eval_quotient_coset h hQuotient
  have hSame : polynomialOf quotient = q := by
    refine eq_of_eval_coset_eq h ?_ hqDegree ?_
    · have hDegree := degree_polynomialOf_lt quotient
      rwa [hLength] at hDegree
    · intro i hi
      have hTwo : (-2 : Fp p) ≠ 0 := neg_ne_zero.mpr h.two_ne_zero
      apply mul_right_cancel₀ hTwo
      have hProduct := congrArg (eval (domain.shift * domain.generator ^ i)) hq
      rw [eval_mul, eval_sub, eval_pow, eval_X, eval_one,
        h.coset_pow_size_sub_one] at hProduct
      rw [hCoset i hi, hProduct]
  refine ⟨?_, ?_⟩
  · rw [hSame, hq]
  · rw [← coeff_polynomialOf, hSame]
    exact hqCoeff _ (Nat.le_refl _)

end EvaluationDomain

end RankOne
