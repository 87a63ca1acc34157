import RankOne.Polynomial.Domain
import RankOne.Proofs.Field.RootOfUnity
import RankOne.Proofs.Polynomial.Transform

/-!
# Lawful evaluation domains

A domain that `ofSize` returns has a generator of the order of its size and a
shift whose square is the generator. On the coset of the shift the vanishing
polynomial is minus two.
-/

namespace RankOne

/-- There are at least as many points as asked for. -/
theorem le_two_pow_ceilLog2 (size : Nat) : size ≤ 2 ^ ceilLog2 size := by
  unfold ceilLog2
  split
  · next hSmall => exact hSmall
  · next hLarge =>
      have hDigits := lt_two_pow_digits (size - 1)
      omega

/-- There are fewer than twice as many points as asked for, and at least one. -/
theorem two_pow_ceilLog2_le (size : Nat) :
    2 ^ ceilLog2 size ≤ 2 * (size - 1) + 1 := by
  unfold ceilLog2
  split
  · rw [pow_zero]
    omega
  · next hLarge =>
      have hPower := Nat.log2_self_le (show size - 1 ≠ 0 by omega)
      rw [pow_succ]
      omega

/-- A power of two below the number of points is below the size. -/
theorem two_pow_lt_of_lt_ceilLog2 {logSize size : Nat}
    (h : logSize < ceilLog2 size) :
    2 ^ logSize < size := by
  have hTwice : 2 ^ (logSize + 1) ≤ 2 ^ ceilLog2 size :=
    Nat.pow_le_pow_right Nat.two_pos h
  have hFew := two_pow_ceilLog2_le size
  have hPos := Nat.two_pow_pos logSize
  rw [pow_succ] at hTwice
  omega

/-- The exponent is the least one whose power of two is at least the size. -/
theorem ceilLog2_le_iff {logSize size : Nat} :
    ceilLog2 size ≤ logSize ↔ size ≤ 2 ^ logSize := by
  constructor
  · intro h
    exact (le_two_pow_ceilLog2 size).trans (Nat.pow_le_pow_right Nat.two_pos h)
  · intro h
    exact Nat.le_of_not_lt fun hSmaller =>
      Nat.not_lt.mpr h (two_pow_lt_of_lt_ceilLog2 hSmaller)

namespace EvaluationDomain

variable {p : Nat}

/-- The constants of a domain are what they are meant to be. -/
structure Lawful [Fact p.Prime] (domain : EvaluationDomain p) : Prop where
  primitive : IsPrimitiveRoot domain.generator domain.size
  shift_sq : domain.shift * domain.shift = domain.generator
  shift_pow : domain.shift ^ domain.size = -1
  generator_inv : domain.generator * domain.generatorInv = 1
  shift_inv : domain.shift * domain.shiftInv = 1
  size_inv : (domain.size : Fp p) * domain.sizeInv = 1
  two_ne_zero : (2 : Fp p) ≠ 0

theorem size_pos (domain : EvaluationDomain p) : 0 < domain.size :=
  Nat.two_pow_pos _

/-- A size has a domain exactly when the field has the shift, and its order is a
word. -/
theorem exists_ofSize_iff [TwoAdic p] {size : Nat} :
    (∃ domain, ofSize p size = .ok domain) ↔
      ceilLog2 size + 1 ≤ TwoAdic.adicity p ∧ ceilLog2 size + 1 < 64 := by
  unfold ofSize
  dsimp only
  split
  · next hShift => exact ⟨fun _ => hShift, fun _ => ⟨_, rfl⟩⟩
  · next hNone =>
      constructor
      · rintro ⟨domain, h⟩
        cases h
      · intro h
        exact absurd h hNone

theorem ofSize_lawful [Fact p.Prime] [TwoAdic p] [LawfulTwoAdic p] {size : Nat}
    {domain : EvaluationDomain p} (h : ofSize p size = .ok domain) :
    domain.Lawful ∧ domain.logSize = ceilLog2 size := by
  obtain ⟨hAdicity, -⟩ := exists_ofSize_iff.mp ⟨domain, h⟩
  unfold ofSize at h
  dsimp only at h
  split at h
  swap
  · cases h
  injection h with h
  subst h
  have hGenerator :=
    TwoAdic.isPrimitiveRoot_rootOfOrder (p := p) (Nat.le_of_succ_le hAdicity)
  have hShift := TwoAdic.isPrimitiveRoot_rootOfOrder (p := p) hAdicity
  have hHalf :
      TwoAdic.rootOfOrder p (ceilLog2 size + 1) ^ 2 ^ ceilLog2 size = -1 := by
    rw [pow_succ] at hShift
    exact pow_half_eq_neg_one hShift (Nat.two_pow_pos _)
  have hTwo : (2 : Fp p) ≠ 0 := by
    intro hZero
    have hSame : (-1 : Fp p) = 1 := by
      rw [neg_eq_iff_add_eq_zero, one_add_one_eq_two, hZero]
    rw [hSame] at hHalf
    have hLe :=
      Nat.le_of_dvd (Nat.two_pow_pos _) (hShift.dvd_of_pow_eq_one _ hHalf)
    rw [pow_succ] at hLe
    have hPos := Nat.two_pow_pos (ceilLog2 size)
    omega
  have hSize : ((2 ^ ceilLog2 size : Nat) : Fp p) ≠ 0 := by
    rw [Nat.cast_pow]
    exact pow_ne_zero _ (by exact_mod_cast hTwo)
  refine ⟨?_, rfl⟩
  exact
    { primitive := hGenerator
      shift_sq := TwoAdic.rootOfOrder_succ_sq hAdicity
      shift_pow := hHalf
      generator_inv :=
        mul_inv_cancel₀ (hGenerator.ne_zero (Nat.two_pow_pos _).ne')
      shift_inv := mul_inv_cancel₀ (hShift.ne_zero (Nat.two_pow_pos _).ne')
      size_inv := mul_inv_cancel₀ hSize
      two_ne_zero := hTwo }

/-- Where a size has a domain, a size that asks for no more points has one. -/
theorem exists_ofSize_of_le [TwoAdic p] {size size' : Nat}
    {domain : EvaluationDomain p} (hLog : ceilLog2 size' ≤ ceilLog2 size)
    (h : ofSize p size = .ok domain) :
    ∃ domain', ofSize p size' = .ok domain' := by
  obtain ⟨hAdicity, hWord⟩ := exists_ofSize_iff.mp ⟨domain, h⟩
  exact exists_ofSize_iff.mpr ⟨by omega, by omega⟩

/-- Sizes that ask for the same number of points have the same domain. -/
theorem ofSize_unique [TwoAdic p] {size size' : Nat}
    {domain domain' : EvaluationDomain p}
    (hLog : ceilLog2 size' = ceilLog2 size) (h : ofSize p size = .ok domain)
    (h' : ofSize p size' = .ok domain') : domain' = domain := by
  unfold ofSize at h h'
  rw [hLog] at h'
  dsimp only at h h'
  split at h <;> simp_all

namespace Lawful

variable [Fact p.Prime] {domain : EvaluationDomain p} (h : domain.Lawful)
include h

theorem halfTurn : HalfTurn domain.logSize domain.generator := by
  intro half hHalf
  have hPrimitive := h.primitive
  rw [size, hHalf, pow_succ] at hPrimitive
  exact pow_half_eq_neg_one hPrimitive (Nat.two_pow_pos _)

theorem primitive_inv : IsPrimitiveRoot domain.generatorInv domain.size := by
  have hInv : domain.generatorInv = domain.generator⁻¹ := by
    rw [eq_comm, inv_eq_iff_eq_inv, eq_comm]
    exact inv_eq_of_mul_eq_one_left h.generator_inv
  rw [hInv]
  exact h.primitive.inv

theorem halfTurn_inv : HalfTurn domain.logSize domain.generatorInv := by
  intro half hHalf
  have hPrimitive := h.primitive_inv
  rw [size, hHalf, pow_succ] at hPrimitive
  exact pow_half_eq_neg_one hPrimitive (Nat.two_pow_pos _)

theorem generator_pow_size (i : Nat) :
    (domain.generator ^ i) ^ domain.size = 1 := by
  rw [← pow_mul, mul_comm, pow_mul, h.primitive.pow_eq_one, one_pow]

/-- The points of the coset are the roots of `Xⁿ + 1`. -/
theorem coset_pow_size (i : Nat) :
    (domain.shift * domain.generator ^ i) ^ domain.size = -1 := by
  rw [mul_pow, h.shift_pow, h.generator_pow_size, mul_one]

/-- On the coset `Xⁿ - 1` is minus two. -/
theorem coset_pow_size_sub_one (i : Nat) :
    (domain.shift * domain.generator ^ i) ^ domain.size - 1 = -2 := by
  rw [h.coset_pow_size]
  ring

private theorem shift_ne_zero : domain.shift ≠ 0 :=
  left_ne_zero_of_mul_eq_one h.shift_inv

theorem injOn_points :
    Set.InjOn (fun i =>
      domain.generator ^ i) (Finset.range domain.size : Set Nat) := by
  intro i hi j hj hSame
  rw [Finset.coe_range, Set.mem_Iio] at hi hj
  exact h.primitive.pow_inj hi hj hSame

theorem injOn_coset :
    Set.InjOn (fun i => domain.shift * domain.generator ^ i)
      (Finset.range domain.size : Set Nat) := by
  intro i hi j hj hSame
  exact h.injOn_points hi hj (mul_left_cancel₀ h.shift_ne_zero hSame)

/-- The division constant of the coset is the inverse of minus two. -/
theorem vanishingInvOnCoset_mul_neg_two :
    domain.vanishingInvOnCoset * -2 = 1 := by
  have hOdd : p % 2 = 1 := by
    rcases (Fact.out : p.Prime).eq_two_or_odd with hEven | hOdd
    · exfalso
      apply h.two_ne_zero
      subst hEven
      exact_mod_cast Fp.cast_modulus (p := 2)
    · exact hOdd
  have hHalves : (p - 1) / 2 * 2 + 1 = p := by omega
  have hCast : (((p - 1) / 2 : Nat) : Fp p) * 2 + 1 = 0 := by
    have hSum := congrArg (Nat.cast : Nat → Fp p) hHalves
    push_cast at hSum
    rw [hSum, Fp.cast_modulus]
  show (((p - 1) / 2 : Nat) : Fp p) * -2 = 1
  linear_combination -hCast

end Lawful

end EvaluationDomain

end RankOne
