import RankOne.Proofs.Curve.ScalarField
import RankOne.Proofs.Polynomial.Domain
import Mathlib.Data.UInt

/-!
# Which sizes have a domain

The number of points for a size is the least power of two that is at least the
size and at least one. Sizes are words of 64 bits, and for the largest of them
there is no such word. Where there is one, the field must have a root of twice
that order, which is looked up by its order, again a word.

The points of a domain are the powers of its generator, and those of its coset
are shifted by a square root of it. Their powers by the number of points are one
and minus one, so the coset has no point in common with the domain, and on it
the vanishing polynomial is the inverse of the division constant.
-/

namespace RankOne

/-! ## Numbers of points -/

/-- The words that are enough points for a size: the powers of two that are at
least the size and at least one. -/
def pointCounts (size : UInt64) : Set UInt64 :=
  {n | n.toNat.isPowerOfTwo ∧ max size.toNat 1 ≤ n.toNat}

/-- Enough points are at least as many as a domain for the size has. -/
private theorem two_pow_ceilLog2_le_of_mem {size n : UInt64}
    (h : n ∈ pointCounts size) :
    2 ^ ceilLog2 size.toNat ≤ n.toNat := by
  obtain ⟨⟨logSize, hPower⟩, hEnough⟩ := h
  rw [hPower] at hEnough ⊢
  have hSize : size.toNat ≤ 2 ^ logSize := (le_max_left _ _).trans hEnough
  exact Nat.pow_le_pow_right Nat.two_pos (ceilLog2_le_iff.mpr hSize)

/-- The number of points of a domain for the size is the least that is enough,
if it is a word. -/
private theorem isLeast_pointCounts_iff {size n : UInt64} :
    IsLeast (pointCounts size) n ↔ n.toNat = 2 ^ ceilLog2 size.toNat := by
  have hMem : ∀ m : UInt64, m.toNat = 2 ^ ceilLog2 size.toNat →
      m ∈ pointCounts size := by
    intro m hm
    refine ⟨⟨_, hm⟩, max_le ?_ ?_⟩
    · rw [hm]
      exact le_two_pow_ceilLog2 _
    · rw [hm]
      exact Nat.two_pow_pos _
  constructor
  · rintro ⟨hn, hLeast⟩
    have hLe := two_pow_ceilLog2_le_of_mem hn
    have hWord : (UInt64.ofNat (2 ^ ceilLog2 size.toNat)).toNat =
        2 ^ ceilLog2 size.toNat :=
      UInt64.toNat_ofNat_of_lt' (Nat.lt_of_le_of_lt hLe n.toNat_lt)
    have hOther := UInt64.le_iff_toNat_le.mp (hLeast (hMem _ hWord))
    rw [hWord] at hOther
    exact Nat.le_antisymm hOther hLe
  · intro hn
    refine ⟨hMem n hn, fun m hm => UInt64.le_iff_toNat_le.mpr ?_⟩
    rw [hn]
    exact two_pow_ceilLog2_le_of_mem hm

/-- The sizes up to `2⁶³` have a number of points, the larger ones have none. -/
theorem exists_isLeast_pointCounts {size : UInt64} :
    (∃ n, IsLeast (pointCounts size) n) ↔ size.toNat ≤ 2 ^ 63 := by
  simp only [isLeast_pointCounts_iff, ← ceilLog2_le_iff]
  constructor
  · rintro ⟨n, hn⟩
    have hWord := n.toNat_lt
    rw [hn] at hWord
    exact Nat.le_of_lt_succ ((Nat.pow_lt_pow_iff_right Nat.one_lt_two).mp hWord)
  · intro h
    refine ⟨UInt64.ofNat (2 ^ ceilLog2 size.toNat),
      UInt64.toNat_ofNat_of_lt' ?_⟩
    exact Nat.pow_lt_pow_right Nat.one_lt_two (Nat.lt_succ_of_le h)

namespace EvaluationDomain

variable {p : Nat}

/-- A size has a domain exactly when it has a number of points, twice that
number is the order of a root of the field, and it is a word. -/
theorem exists_ofSize_iff_pointCount [TwoAdic p] {size : UInt64} :
    (∃ domain, ofSize p size.toNat = .ok domain) ↔
      ∃ n, IsLeast (pointCounts size) n ∧ 2 * n.toNat ≤ 2 ^ TwoAdic.adicity p ∧
        2 * n.toNat < 2 ^ 64 := by
  rw [exists_ofSize_iff]
  have hTwice : 2 * 2 ^ ceilLog2 size.toNat = 2 ^ (ceilLog2 size.toNat + 1) :=
    (pow_succ' _ _).symm
  constructor
  · rintro ⟨hAdicity, hWord⟩
    have hSize : ceilLog2 size.toNat ≤ 63 := by omega
    obtain ⟨n, hn⟩ := exists_isLeast_pointCounts.mpr (ceilLog2_le_iff.mp hSize)
    refine ⟨n, hn, ?_⟩
    rw [isLeast_pointCounts_iff.mp hn, hTwice]
    exact ⟨Nat.pow_le_pow_right Nat.two_pos hAdicity,
      Nat.pow_lt_pow_right Nat.one_lt_two hWord⟩
  · rintro ⟨n, hn, hAdicity, hWord⟩
    rw [isLeast_pointCounts_iff.mp hn, hTwice] at hAdicity hWord
    exact ⟨(Nat.pow_le_pow_iff_right Nat.one_lt_two).mp hAdicity,
      (Nat.pow_lt_pow_iff_right Nat.one_lt_two).mp hWord⟩

variable [Fact p.Prime] {domain : EvaluationDomain p}

/-! ## Points -/

namespace Lawful

variable (h : domain.Lawful)
include h

/-- No point of the coset is a point of the domain. -/
private theorem coset_ne_point (i j : Nat) :
    domain.shift * domain.generator ^ i ≠ domain.generator ^ j := by
  intro hSame
  have hPower := congrArg (· ^ domain.size) hSame
  simp only [h.coset_pow_size, h.generator_pow_size] at hPower
  have hTwo : (2 : Fp p) = 1 - -1 := by ring
  exact h.two_ne_zero (by rw [hTwo, hPower, sub_self])

/-- On the coset the vanishing polynomial is minus two. -/
private theorem vanishing_coset (i : Nat) :
    domain.vanishing (domain.shift * domain.generator ^ i) = -2 := by
  rw [vanishing, power_eq_pow, h.coset_pow_size_sub_one]

end Lawful

variable [TwoAdic p] [LawfulTwoAdic p]

/-- A size has a domain exactly when the least power of two that is enough
exists as a word and its double, a word too, is at most the order of the
designated root. Where that order is less than `2⁶⁴` the double is a word
anyway. The domain has that number of points, and its generator has that order;
its shift is a square root of the generator with the power minus one; the
inverses are inverses; the points of the coset are distinct and none of them is
a point of the domain; and on all of them the vanishing polynomial is inverted
by the division constant. -/
theorem ofSize_exact (size : UInt64) :
    ((∃ domain, ofSize p size.toNat = .ok domain) ↔
      ∃ n, IsLeast (pointCounts size) n ∧ 2 * n.toNat ≤ 2 ^ TwoAdic.adicity p ∧
        2 * n.toNat < 2 ^ 64) ∧
    (TwoAdic.adicity p < 64 →
      ((∃ domain, ofSize p size.toNat = .ok domain) ↔
        ∃ n, IsLeast (pointCounts size) n ∧
          2 * n.toNat ≤ 2 ^ TwoAdic.adicity p)) ∧
    ∀ domain, ofSize p size.toNat = .ok domain →
      (∀ n, IsLeast (pointCounts size) n → domain.size = n.toNat) ∧
      orderOf domain.generator = domain.size ∧
      domain.shift ^ 2 = domain.generator ∧
      domain.shift ^ domain.size = -1 ∧
      domain.generator * domain.generatorInv = 1 ∧
      domain.shift * domain.shiftInv = 1 ∧
      (domain.size : Fp p) * domain.sizeInv = 1 ∧
      (∀ i < domain.size, ∀ j < domain.size,
        domain.shift * domain.generator ^ i =
          domain.shift * domain.generator ^ j → i = j) ∧
      (∀ i j, domain.shift * domain.generator ^ i ≠ domain.generator ^ j) ∧
      ∀ i, domain.vanishing (domain.shift * domain.generator ^ i) *
        domain.vanishingInvOnCoset = 1 := by
  refine ⟨exists_ofSize_iff_pointCount, fun hAdicity => ?_,
    fun domain hDomain => ?_⟩
  · rw [exists_ofSize_iff_pointCount]
    refine exists_congr fun n => and_congr_right fun _ =>
      and_iff_left_of_imp fun hDouble => ?_
    exact Nat.lt_of_le_of_lt hDouble
      (Nat.pow_lt_pow_right Nat.one_lt_two hAdicity)
  · obtain ⟨h, hLog⟩ := ofSize_lawful hDomain
    refine ⟨fun n hn => ?_, h.primitive.eq_orderOf.symm,
      (pow_two _).trans h.shift_sq, h.shift_pow, h.generator_inv, h.shift_inv,
      h.size_inv, fun i hi j hj hSame => ?_, h.coset_ne_point, fun i => ?_⟩
    · rw [EvaluationDomain.size, hLog, isLeast_pointCounts_iff.mp hn]
    · exact h.injOn_coset (by simpa using hi) (by simpa using hj) hSame
    · rw [h.vanishing_coset, mul_comm, h.vanishingInvOnCoset_mul_neg_two]

/-- The designated root of the scalar field of BLS12-381 has order `2³²`:
nothing is asked for and there is one point, `2³¹` points are the most, and the
size `2⁶³ + 1` has no number of points. -/
theorem ofSize_exact_bls12381 :
    (∃ domain, ofSize Bls12381.r (0 : UInt64).toNat = .ok domain ∧
      domain.size = 1) ∧
    (∃ domain, ofSize Bls12381.r (2 ^ 31 : UInt64).toNat = .ok domain ∧
      domain.size = 2 ^ 31 ∧
      orderOf domain.generator = 2 ^ 31 ∧ domain.shift ^ 2 ^ 31 = -1) ∧
    (¬∃ domain, ofSize Bls12381.r (2 ^ 31 + 1 : UInt64).toNat = .ok domain) ∧
    ¬∃ domain, ofSize Bls12381.r (2 ^ 63 + 1 : UInt64).toNat = .ok domain := by
  have hSmall : TwoAdic.adicity Bls12381.r < 64 := by decide
  refine ⟨?_, ?_, fun hLarge => ?_, fun hLarge => ?_⟩
  · obtain ⟨-, hExists, hDomain⟩ := ofSize_exact (p := Bls12381.r) 0
    have hOne : IsLeast (pointCounts 0) 1 := isLeast_pointCounts_iff.mpr rfl
    obtain ⟨domain, h⟩ := (hExists hSmall).mpr ⟨1, hOne, by decide⟩
    exact ⟨domain, h, (hDomain domain h).1 1 hOne⟩
  · obtain ⟨-, hExists, hDomain⟩ := ofSize_exact (p := Bls12381.r) (2 ^ 31)
    have hMost : IsLeast (pointCounts (2 ^ 31)) (2 ^ 31) :=
      isLeast_pointCounts_iff.mpr rfl
    obtain ⟨domain, h⟩ := (hExists hSmall).mpr ⟨2 ^ 31, hMost, by decide⟩
    obtain ⟨hCount, hOrder, -, hPower, -⟩ := hDomain domain h
    have hSize : domain.size = 2 ^ 31 := hCount _ hMost
    rw [hSize] at hOrder hPower
    exact ⟨domain, h, hSize, hOrder, hPower⟩
  · obtain ⟨n, hn, hDouble⟩ :=
      ((ofSize_exact (p := Bls12381.r) (2 ^ 31 + 1)).2.1 hSmall).mp hLarge
    rw [isLeast_pointCounts_iff.mp hn] at hDouble
    exact absurd hDouble (by decide)
  · obtain ⟨n, hn, -⟩ :=
      (ofSize_exact (p := Bls12381.r) (2 ^ 63 + 1)).1.mp hLarge
    exact absurd (exists_isLeast_pointCounts.mp ⟨n, hn⟩) (by decide)

end EvaluationDomain

/-! ## Roots of an order beyond a word -/

/-- A prime that exceeds `3 · 2⁶⁶` by one, so that there are roots of unity of
order `2⁶⁶` modulo it. -/
def deepModulus : Nat := 221360928884514619393

instance : Modulus deepModulus := ⟨by decide⟩

instance : TwoAdic deepModulus where
  adicity := 66
  root := power (Fp.ofNat deepModulus 10) ((deepModulus - 1) >>> 66)

private theorem deepModulus_factors : ∀ f ∈ [(2, 66), (3, 1)], f.1.Prime := by
  simp only [List.forall_mem_cons]
  norm_num

private theorem generates_ten :
    (Fp.ofNat deepModulus 10).Generates [(2, 66), (3, 1)] := by
  decide +kernel

instance prime_deepModulus : Fact deepModulus.Prime :=
  ⟨generates_ten.prime deepModulus_factors⟩

instance : LawfulTwoAdic deepModulus where
  isPrimitiveRoot_root := by
    show IsPrimitiveRoot (power _ ((deepModulus - 1) >>> _)) _
    rw [Nat.shiftRight_eq_div_pow]
    exact generates_ten.isPrimitiveRoot_power deepModulus_factors
      (by decide +kernel)

namespace EvaluationDomain

/-- For the size `2⁶³` the number of points is a word and twice that number is
at most the order of the designated root, but it is not a word, and there is no
domain. -/
theorem not_ofSize_deepModulus : LawfulTwoAdic deepModulus ∧
    (∃ n, IsLeast (pointCounts (2 ^ 63)) n ∧
      2 * n.toNat ≤ 2 ^ TwoAdic.adicity deepModulus) ∧
    ¬∃ domain, ofSize deepModulus (2 ^ 63 : UInt64).toNat = .ok domain := by
  have hLeast : IsLeast (pointCounts (2 ^ 63)) (2 ^ 63) :=
    isLeast_pointCounts_iff.mpr (by decide +kernel)
  refine ⟨inferInstance, ⟨2 ^ 63, hLeast, by decide +kernel⟩, fun hDomain => ?_⟩
  obtain ⟨n, hn, -, hWord⟩ := exists_ofSize_iff_pointCount.mp hDomain
  rw [isLeast_pointCounts_iff.mp hn] at hWord
  exact absurd hWord (by decide +kernel)

end EvaluationDomain

end RankOne
