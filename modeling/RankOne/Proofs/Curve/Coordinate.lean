import RankOne.Curve.Point
import RankOne.Proofs.Field.Ring

/-!
# The two points over a first coordinate

A point and its mirror image have the same first coordinate, and one bit says
which of the two is meant: whether the second coordinate is the larger one of
itself and its negative. The bit says so unless the second coordinate is zero.
Such a point is its own mirror image, so it has order two, and it lies in no
subgroup of odd order.

## Main results

* `LawfulCoordinate` — the laws of coordinates that this needs, with instances
  for prime fields and their quadratic extensions;
* `CoordinateField.isLarger_withSign` — the bit picks the second coordinate it
  was made from;
* `Curve.not_inSubgroup_of_zero` — points of order two are outside;
* `Curve.sign_of_lift?` — a point of the subgroup has the sign that it was found
  with.
-/

namespace RankOne

/-- The laws of coordinates that points of order two and signs depend on. -/
class LawfulCoordinate (K : Type) [CoordinateField K] : Prop where
  zero_mul (a : K) : 0 * a = 0
  mul_zero (a : K) : a * 0 = 0
  add_zero : (0 : K) + 0 = 0
  one_ne_zero : (1 : K) ≠ 0
  neg_zero : -(0 : K) = 0
  neg_neg (a : K) : -(-a) = a
  exceeds_neg {a : K} (ha : a ≠ 0) :
    CoordinateField.exceeds (-a) a = !CoordinateField.exceeds a (-a)

/-! ## Prime fields and their extensions -/

section Fields

variable {p : Nat} [Modulus p]

/-- In a field of odd order no nonzero element is its own negative. -/
private theorem Fp.val_neg_ne (hOdd : p % 2 = 1) {a : Fp p} (ha : a ≠ 0) :
    (-a).val ≠ a.val := by
  have hPos : a.val ≠ 0 := fun hZero => ha (Fp.ext hZero)
  have hLt := a.isLt
  rw [Fp.val_neg, Nat.mod_eq_of_lt (by omega)]
  omega

theorem Fp.lawfulCoordinate (hOdd : p % 2 = 1) (hOne : 1 < p) :
    LawfulCoordinate (Fp p) where
  zero_mul a := by exact zero_mul a
  mul_zero a := by exact mul_zero a
  add_zero := by exact add_zero (0 : Fp p)
  one_ne_zero h := by
    have hVal : 1 % p = 0 := congrArg Fp.val h
    rw [Nat.mod_eq_of_lt hOne] at hVal
    cases hVal
  neg_zero := by exact neg_zero
  neg_neg a := by exact neg_neg a
  exceeds_neg {a} ha := by
    have hNe := Fp.val_neg_ne hOdd ha
    show decide (a.val < (-a).val) = !decide ((-a).val < a.val)
    rw [← decide_not, decide_eq_decide]
    omega

theorem Fp2.lawfulCoordinate (hOdd : p % 2 = 1) (hOne : 1 < p) :
    LawfulCoordinate (Fp2 p) where
  zero_mul a := by
    have hRe : 0 * a.re + Radicand.radicand * (0 * a.im) = 0 := by ring
    have hIm : (0 + 0) * (a.re + a.im) - 0 * a.re - 0 * a.im = 0 := by ring
    exact congrArg₂ Quadratic.mk hRe hIm
  mul_zero a := by
    have hRe : a.re * 0 + Radicand.radicand * (a.im * 0) = 0 := by ring
    have hIm : (a.re + a.im) * (0 + 0) - a.re * 0 - a.im * 0 = 0 := by ring
    exact congrArg₂ Quadratic.mk hRe hIm
  add_zero := congrArg₂ Quadratic.mk (add_zero (0 : Fp p)) (add_zero (0 : Fp p))
  one_ne_zero h :=
    (Fp.lawfulCoordinate hOdd hOne).one_ne_zero (congrArg Quadratic.re h)
  neg_zero :=
    congrArg₂ Quadratic.mk (neg_zero (G := Fp p)) (neg_zero (G := Fp p))
  neg_neg a := congrArg₂ Quadratic.mk (neg_neg a.re) (neg_neg a.im)
  exceeds_neg {a} ha := by
    show (decide (a.im.val < (-a.im).val) ||
        ((-a.im).val == a.im.val && decide (a.re.val < (-a.re).val))) =
      !(decide ((-a.im).val < a.im.val) ||
        (a.im.val == (-a.im).val && decide ((-a.re).val < a.re.val)))
    rw [Bool.eq_iff_iff]
    simp only [Bool.or_eq_true, Bool.and_eq_true, decide_eq_true_eq, beq_iff_eq,
      Bool.not_eq_true', Bool.or_eq_false_iff, Bool.and_eq_false_iff,
        decide_eq_false_iff_not,
      beq_eq_false_iff_ne]
    by_cases hIm : a.im = 0
    · have hRe : a.re ≠ 0 := fun hRe => ha (congrArg₂ Quadratic.mk hRe hIm)
      have hNe := Fp.val_neg_ne hOdd hRe
      have hEq : (-a.im).val = a.im.val := by rw [hIm, neg_zero]
      omega
    · have hNe := Fp.val_neg_ne hOdd hIm
      omega

end Fields

/-! ## Signs -/

section Signs

variable {K : Type} [CoordinateField K] [LawfulCoordinate K]

/-- The larger one of an element and its negative is larger, and the smaller one
is not, unless they are zero. -/
theorem CoordinateField.isLarger_withSign {larger : Bool} {y : K}
    (h : withSign larger y ≠ 0) :
    isLarger (withSign larger y) = larger := by
  unfold withSign at h ⊢
  split at h
  · next hSign =>
      rw [if_pos hSign]
      exact hSign
  · next hSign =>
      have hy : y ≠ 0 := by
        rintro rfl
        exact h LawfulCoordinate.neg_zero
      rw [if_neg hSign]
      unfold isLarger
      rw [LawfulCoordinate.neg_neg, LawfulCoordinate.exceeds_neg hy]
      cases larger <;> simpa using hSign

end Signs

/-! ## Points of order two -/

theorem Curve.inSubgroup_infinity {K : Type} [CoordinateField K] [Curve K] :
    Curve.inSubgroup (.infinity : Point K) = true :=
  decide_eq_true rfl

private theorem Projective.addAffine_of_zero {K : Type} [CoordinateField K]
    {a : Projective K} (h : a.z = 0) (x y : K) : a.addAffine x y = ⟨x, y, 1⟩ :=
  if_pos h

section OrderTwo

variable {K : Type} [CoordinateField K] [LawfulCoordinate K]

namespace Projective

/-- Twice a point of order two, or infinity, is infinity. -/
private theorem double_z_of_zero {a : Projective K} (h : a.y = 0 ∨ a.z = 0) :
    a.double.z = 0 := by
  have hProduct : a.y * a.z = 0 := by
    rcases h with hy | hz
    · rw [hy, LawfulCoordinate.zero_mul]
    · rw [hz, LawfulCoordinate.mul_zero]
  show a.y * a.z + a.y * a.z = 0
  rw [hProduct, LawfulCoordinate.add_zero]

/-- Twice any multiple of a point of order two is infinity. -/
private theorem double_multiple_z (x : K) (digits n : Nat) :
    (multiple x 0 digits n).double.z = 0 := by
  induction digits generalizing n with
  | zero => exact double_z_of_zero (Or.inr rfl)
  | succ digits ih =>
      apply double_z_of_zero
      rw [multiple]
      split
      · rw [addAffine_of_zero (ih (n / 2))]
        exact Or.inl rfl
      · exact Or.inr (ih (n / 2))

/-- An odd multiple of a point of order two is the point. -/
private theorem multiple_of_odd (x : K) (digits : Nat) {n : Nat}
    (hOdd : n % 2 = 1) :
    multiple x 0 (digits + 1) n = ⟨x, 0, 1⟩ := by
  rw [multiple, if_pos hOdd,
    addAffine_of_zero (double_multiple_z x digits (n / 2))]

end Projective

/-- A point of order two lies in no subgroup of odd order. -/
theorem Curve.not_inSubgroup_of_zero [Curve K] (hOdd : Curve.order K % 2 = 1)
    (x : K) :
    Curve.inSubgroup (.affine x 0 : Point K) = false := by
  unfold Curve.inSubgroup
  rw [decide_eq_false_iff_not]
  rw [Point.multiply, Projective.multiple_of_odd x _ hOdd, Projective.toPoint,
    if_neg LawfulCoordinate.one_ne_zero]
  intro h
  cases h

/-- A point of a subgroup of odd order has the sign that it was found with. -/
theorem Curve.sign_of_lift? [Curve K] (hOdd : Curve.order K % 2 = 1) {x : K}
    {larger : Bool} {P : Point K} (h : Curve.lift? x larger = some P)
    (hSubgroup : Curve.inSubgroup P = true) :
    ∃ y, P = .affine x y ∧ CoordinateField.isLarger y = larger := by
  obtain ⟨root, -, rfl⟩ := Option.map_eq_some_iff.mp h
  refine ⟨_, rfl, CoordinateField.isLarger_withSign ?_⟩
  intro hZero
  rw [hZero, Curve.not_inSubgroup_of_zero hOdd] at hSubgroup
  cases hSubgroup

end OrderTwo

end RankOne
