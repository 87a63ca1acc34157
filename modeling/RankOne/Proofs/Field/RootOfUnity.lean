import RankOne.Field.TwoAdic
import RankOne.Proofs.Field.Ring

/-!
# Roots of unity of power-of-two order

The designated element of a scalar field is meant to have order `2 ^ adicity`.
`LawfulTwoAdic` states that it has, and then the root of order `2 ^ k` has that
order for every `k` up to the adicity.
-/

namespace RankOne

/-- The designated root of unity has the order that it is designated for. -/
class LawfulTwoAdic (p : Nat) [Fact p.Prime] [TwoAdic p] : Prop where
  isPrimitiveRoot_root :
    IsPrimitiveRoot (TwoAdic.root : Fp p) (2 ^ TwoAdic.adicity p)

namespace TwoAdic

variable {p : Nat} [Fact p.Prime] [TwoAdic p]

theorem isPrimitiveRoot_rootOfOrder [LawfulTwoAdic p] {k : Nat}
    (hk : k ≤ adicity p) :
    IsPrimitiveRoot (rootOfOrder p k) (2 ^ k) := by
  have hRoot : IsPrimitiveRoot (root : Fp p) (2 ^ adicity p) :=
    LawfulTwoAdic.isPrimitiveRoot_root
  have hOrder : 2 ^ adicity p = 2 ^ (adicity p - k) * 2 ^ k := by
    rw [← pow_add, Nat.sub_add_cancel hk]
  rw [rootOfOrder, power_eq_pow]
  exact hRoot.pow (Nat.two_pow_pos _) hOrder

/-- The roots of neighbouring orders are squares of each other. -/
theorem rootOfOrder_succ_sq {k : Nat} (hk : k + 1 ≤ adicity p) :
    rootOfOrder p (k + 1) * rootOfOrder p (k + 1) = rootOfOrder p k := by
  have hExponent : 2 ^ (adicity p - k) = 2 ^ (adicity p - (k + 1)) * 2 := by
    rw [← pow_succ]
    congr 1
    omega
  rw [rootOfOrder, rootOfOrder, power_eq_pow, power_eq_pow, hExponent,
    pow_mul, pow_two]

end TwoAdic

/-- Half a turn of a primitive root of even order is minus one. -/
theorem pow_half_eq_neg_one {p : Nat} [Fact p.Prime] {w : Fp p} {half : Nat}
    (hw : IsPrimitiveRoot w (half * 2)) (hPos : 0 < half) : w ^ half = -1 := by
  have hSquare : w ^ half * w ^ half = 1 := by
    rw [← pow_two, ← pow_mul, hw.pow_eq_one]
  have hNotOne : w ^ half ≠ 1 := by
    intro hOne
    have hLe := Nat.le_of_dvd hPos (hw.dvd_of_pow_eq_one half hOne)
    omega
  exact (mul_self_eq_one_iff.mp hSquare).resolve_left hNotOne

end RankOne
