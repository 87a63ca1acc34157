import RankOne.Proofs.Polynomial.Quotient

/-!
# Polynomials through values on a domain

For each list of values there is one polynomial of degree less than the number
of points that takes these values at the points. Outside the domain its value is
a weighted sum of the values, and the weight of the `j`-th value at `x` is
`(xⁿ - 1) / n · ωʲ / (x - ωʲ)`.
-/

namespace RankOne

open Polynomial

variable {p : Nat} [Fact p.Prime]

namespace EvaluationDomain

/-- The polynomial with the given values at the points. -/
noncomputable def through (domain : EvaluationDomain p) (values : Nat → Fp p) :
    (Fp p)[X] :=
  Lagrange.interpolate (Finset.range domain.size) (fun i =>
    domain.generator ^ i) values

/-- The weight of the value at the `j`-th point in the value at `x`. -/
def weight (domain : EvaluationDomain p) (x : Fp p) (j : Nat) : Fp p :=
  domain.vanishing x * domain.sizeInv * domain.generator ^ j *
    (x - domain.generator ^ j)⁻¹

theorem eval_vanishing (domain : EvaluationDomain p) (x : Fp p) :
    (X ^ domain.size - 1 : (Fp p)[X]).eval x = domain.vanishing x := by
  rw [eval_sub, eval_pow, eval_X, eval_one, vanishing, power_eq_pow]

/-- Values combine linearly. -/
theorem through_sum {ι : Type} (domain : EvaluationDomain p) (s : Finset ι)
    (scalars : ι → Fp p) (values : ι → Nat → Fp p) :
    domain.through (fun j => ∑ i ∈ s, scalars i * values i j) =
      ∑ i ∈ s, C (scalars i) * domain.through (values i) := by
  have hSum : (fun j => ∑ i ∈ s, scalars i * values i j) = ∑ i ∈ s,
      scalars i • values i := by
    funext j
    rw [Finset.sum_apply]
    rfl
  unfold through
  rw [hSum, map_sum]
  refine Finset.sum_congr rfl fun i _ => ?_
  rw [map_smul, smul_eq_C_mul]

variable {domain : EvaluationDomain p}

section Points

variable (h : domain.Lawful)
include h

theorem eval_through_point (values : Nat → Fp p) {i : Nat}
    (hi : i < domain.size) :
    (domain.through values).eval (domain.generator ^ i) = values i :=
  Lagrange.eval_interpolate_at_node values h.injOn_points
    (Finset.mem_range.mpr hi)

theorem degree_through_lt (values : Nat → Fp p) :
    (domain.through values).degree < domain.size := by
  have hDegree := Lagrange.degree_interpolate_lt values h.injOn_points
  rwa [Finset.card_range] at hDegree

/-- Interpolation by transforms yields the polynomial through the values. -/
theorem interpolant_eq_through (values : List (Fp p)) :
    domain.interpolant values = domain.through fun i => values.getD i 0 := by
  refine Lagrange.eq_interpolate_of_eval_eq _ h.injOn_points ?_ ?_
  · rw [Finset.card_range]
    exact degree_interpolant_lt values
  · intro i hi
    exact eval_interpolant h values (Finset.mem_range.mp hi)

/-! ## Outside the domain -/

/-- The points are the roots of the vanishing polynomial. -/
private theorem nodal_points :
    Lagrange.nodal (Finset.range domain.size) (fun i => domain.generator ^ i) =
      X ^ domain.size - 1 := by
  have hDegree : (X ^ domain.size - 1 : (Fp p)[X]).degree = domain.size := by
    rw [← C_1]
    exact degree_X_pow_sub_C domain.size_pos 1
  have hMonic : (X ^ domain.size - 1 : (Fp p)[X]).Monic := by
    rw [← C_1]
    exact monic_X_pow_sub_C 1 domain.size_pos.ne'
  refine eq_of_degree_le_of_eval_index_eq
    (Finset.range domain.size) h.injOn_points ?_ ?_ ?_ ?_
  · rw [Lagrange.degree_nodal]
  · rw [Lagrange.degree_nodal, Finset.card_range, hDegree]
  · rw [Lagrange.nodal_monic.leadingCoeff, hMonic.leadingCoeff]
  · intro i hi
    rw [Lagrange.eval_nodal_at_node hi, eval_sub, eval_pow, eval_X, eval_one,
      h.generator_pow_size, sub_self]

private theorem nodalWeight_points {j : Nat} (hj : j < domain.size) :
    Lagrange.nodalWeight (Finset.range domain.size) (fun i =>
      domain.generator ^ i) j =
      domain.sizeInv * domain.generator ^ j := by
  have hPower : (domain.generator ^ j) ^ (domain.size - 1) *
      domain.generator ^ j = 1 := by
    rw [← pow_succ, Nat.sub_add_cancel domain.size_pos, h.generator_pow_size]
  have hDerivative : (derivative (X ^ domain.size - 1 : (Fp p)[X])).eval
      (domain.generator ^ j) =
      (domain.size : Fp p) * (domain.generator ^ j) ^ (domain.size - 1) := by
    rw [derivative_sub, derivative_X_pow, derivative_one, sub_zero, eval_mul,
      eval_pow, eval_X, eval_C]
  rw [Lagrange.nodalWeight_eq_eval_derivative_nodal (Finset.mem_range.mpr hj),
    nodal_points h, hDerivative]
  apply inv_eq_of_mul_eq_one_right
  calc (domain.size : Fp p) * (domain.generator ^ j) ^ (domain.size - 1) *
        (domain.sizeInv * domain.generator ^ j)
      = (domain.size : Fp p) * domain.sizeInv *
        ((domain.generator ^ j) ^ (domain.size - 1) * domain.generator ^
          j) := by ring
    _ = 1 := by rw [h.size_inv, hPower, one_mul]

/-- Outside the domain the value is the weighted sum of the values at the
points. -/
theorem eval_through_outside {x : Fp p} (hx : domain.vanishing x ≠ 0)
    (values : Nat → Fp p) :
    (domain.through values).eval x =
      ∑ j ∈ Finset.range domain.size, domain.weight x j * values j := by
  have hOutside : ∀ j ∈ Finset.range domain.size, x ≠ domain.generator ^ j := by
    intro j _ hPoint
    apply hx
    rw [vanishing, power_eq_pow, hPoint, h.generator_pow_size, sub_self]
  unfold through
  rw [Lagrange.eval_interpolate_not_at_node values hOutside, nodal_points h,
    eval_vanishing, Finset.mul_sum]
  refine Finset.sum_congr rfl fun j hj => ?_
  rw [nodalWeight_points h (Finset.mem_range.mp hj), weight]
  ring

end Points

end EvaluationDomain

end RankOne
