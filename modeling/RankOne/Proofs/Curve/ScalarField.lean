import RankOne.Curve.Bls12381
import RankOne.Curve.Bn254
import RankOne.Proofs.Field.RootOfUnity
import Mathlib.NumberTheory.LucasPrimality

/-!
# The scalar fields of the curves

The orders of the curves' groups are prime, and the roots of unity that are
designated in their scalar fields have the orders they are designated for. Both
follow from one computation: a residue whose power `p - 1` is one, while the
power `(p - 1) / q` is not for any prime factor `q` of `p - 1`, has order
`p - 1`. Only a prime modulus has such a residue, and its powers are the roots
of unity.
-/

namespace RankOne

namespace Fp

variable {p : Nat} [Modulus p]

/-- The factors multiply up to `p - 1`, and the powers of the residue tell that
its order divides `p - 1` but no quotient by a factor. Each factor stands with
its exponent. -/
def Generates (g : Fp p) (factors : List (Nat × Nat)) : Prop :=
  (factors.map fun f => f.1 ^ f.2).prod = p - 1 ∧ power g (p - 1) = 1 ∧
    ∀ f ∈ factors, power g ((p - 1) / f.1) ≠ 1

instance decidableGenerates (g : Fp p) (factors : List (Nat × Nat)) :
    Decidable (g.Generates factors) :=
  inferInstanceAs (Decidable (_ ∧ _ ∧ _))

namespace Generates

variable {g : Fp p} {factors : List (Nat × Nat)} (h : g.Generates factors)
  (hPrimes : ∀ f ∈ factors, f.1.Prime)
include h hPrimes

private theorem pos : 0 < p - 1 := by
  rw [← h.1]
  apply List.prod_pos
  intro power hPower
  obtain ⟨f, hf, rfl⟩ := List.mem_map.mp hPower
  exact Nat.pow_pos (hPrimes f hf).pos

/-- The factors are all the prime factors of `p - 1`. -/
private theorem exists_factor {q : Nat} (hq : q.Prime) (hDvd : q ∣ p - 1) :
    ∃ f ∈ factors, f.1 = q := by
  rw [← h.1] at hDvd
  obtain ⟨power, hPower, hqPower⟩ := (Prime.dvd_prod_iff hq.prime).mp hDvd
  obtain ⟨f, hf, rfl⟩ := List.mem_map.mp hPower
  refine ⟨f, hf, ?_⟩
  exact ((Nat.prime_dvd_prime_iff_eq hq (hPrimes f hf)).mp
    (hq.dvd_of_dvd_pow hqPower)).symm

/-- The order of the residue is `p - 1`. -/
theorem orderOf_eq : orderOf g = p - 1 := by
  apply orderOf_eq_of_pow_and_pow_div_prime (h.pos hPrimes)
  · rw [← power_eq_pow]
    exact h.2.1
  · intro q hq hDvd
    obtain ⟨f, hf, rfl⟩ := h.exists_factor hPrimes hq hDvd
    rw [← power_eq_pow]
    exact h.2.2 f hf

/-- Only a prime modulus has a residue of order `p - 1`. -/
theorem prime : p.Prime := by
  apply lucas_primality p g.toZMod
  · rw [← toZMod_power, h.2.1, toZMod_one]
  · intro q hq hDvd hOne
    obtain ⟨f, hf, rfl⟩ := h.exists_factor hPrimes hq hDvd
    rw [← toZMod_power, ← toZMod_one] at hOne
    exact h.2.2 f hf (toZMod_injective hOne)

/-- A power of the residue is a root of unity of any order that divides
`p - 1`. -/
theorem isPrimitiveRoot_power {order : Nat} (hDvd : order ∣ p - 1) :
    IsPrimitiveRoot (power g ((p - 1) / order)) order := by
  rw [power_eq_pow]
  have hRoot := IsPrimitiveRoot.orderOf g
  rw [h.orderOf_eq hPrimes] at hRoot
  exact hRoot.pow (h.pos hPrimes) (Nat.div_mul_cancel hDvd).symm

end Generates

end Fp

/-! ## BLS12-381 -/

namespace Bls12381

/-- The prime factors of `r - 1` with their exponents. -/
def factors : List (Nat × Nat) :=
  [(2, 32), (3, 1), (11, 1), (19, 1), (10177, 1), (125527, 1), (859267, 1),
    (906349, 2), (2508409, 1), (2529403, 1), (52437899, 1), (254760293, 2)]

private theorem prime_factors : ∀ f ∈ factors, f.1.Prime := by
  simp only [factors, List.forall_mem_cons]
  norm_num

private theorem generates_seven : (Fp.ofNat r 7).Generates factors := by
  decide +kernel

instance prime_r : Fact r.Prime := ⟨generates_seven.prime prime_factors⟩

instance : LawfulTwoAdic r where
  isPrimitiveRoot_root := by
    show IsPrimitiveRoot (power _ ((r - 1) >>> _)) _
    rw [Nat.shiftRight_eq_div_pow]
    exact generates_seven.isPrimitiveRoot_power prime_factors
      (by decide +kernel)

end Bls12381

/-! ## BN254 -/

namespace Bn254

/-- The prime factors of `r - 1` with their exponents. -/
def factors : List (Nat × Nat) :=
  [(2, 28), (3, 2), (13, 1), (29, 1), (983, 1), (11003, 1), (237073, 1),
    (405928799, 1), (1670836401704629, 1), (13818364434197438864469338081, 1)]

/-! Three of the factors are too large for trial division, and so are factors of
the numbers before two of them. -/

private theorem prime_12048837557 : Nat.Prime 12048837557 := by
  have h : (Fp.ofNat 12048837557 2).Generates [(2, 2), (7, 2), (661, 1),
      (93001, 1)] := by
    decide +kernel
  apply h.prime
  simp only [List.forall_mem_cons]
  norm_num

private theorem prime_5156902474397 : Nat.Prime 5156902474397 := by
  have h : (Fp.ofNat 5156902474397 2).Generates [(2, 2), (107, 1),
      (12048837557, 1)] := by
    decide +kernel
  apply h.prime
  simp only [List.forall_mem_cons, prime_12048837557, true_and]
  norm_num

private theorem prime_1670836401704629 : Nat.Prime 1670836401704629 := by
  have h : (Fp.ofNat 1670836401704629 2).Generates [(2, 2), (3, 4),
      (5156902474397, 1)] := by
    decide +kernel
  apply h.prime
  simp only [List.forall_mem_cons, prime_5156902474397, true_and]
  norm_num

private theorem prime_639533339 : Nat.Prime 639533339 := by
  have h : (Fp.ofNat 639533339 2).Generates [(2, 1), (229, 1), (853, 1),
      (1637, 1)] := by
    decide +kernel
  apply h.prime
  simp only [List.forall_mem_cons]
  norm_num

private theorem prime_65865678001877903 : Nat.Prime 65865678001877903 := by
  have h : (Fp.ofNat 65865678001877903 5).Generates
      [(2, 1), (83, 1), (379, 1), (1637, 1), (639533339, 1)] := by
    decide +kernel
  apply h.prime
  simp only [List.forall_mem_cons, prime_639533339, true_and]
  norm_num

private theorem prime_13818364434197438864469338081 :
    Nat.Prime 13818364434197438864469338081 := by
  have h : (Fp.ofNat 13818364434197438864469338081 3).Generates
      [(2, 5), (5, 1), (823, 1), (1593227, 1), (65865678001877903, 1)] := by
    decide +kernel
  apply h.prime
  simp only [List.forall_mem_cons, prime_65865678001877903, true_and]
  norm_num

private theorem prime_405928799 : Nat.Prime 405928799 := by
  have h : (Fp.ofNat 405928799 22).Generates [(2, 1), (11, 1), (3691, 1),
      (4999, 1)] := by
    decide +kernel
  apply h.prime
  simp only [List.forall_mem_cons]
  norm_num

private theorem prime_factors : ∀ f ∈ factors, f.1.Prime := by
  simp only [factors, List.forall_mem_cons, prime_405928799,
    prime_1670836401704629, prime_13818364434197438864469338081, true_and]
  norm_num

private theorem generates_five : (Fp.ofNat r 5).Generates factors := by
  decide +kernel

instance prime_r : Fact r.Prime := ⟨generates_five.prime prime_factors⟩

instance : LawfulTwoAdic r where
  isPrimitiveRoot_root := by
    show IsPrimitiveRoot (power _ ((r - 1) >>> _)) _
    rw [Nat.shiftRight_eq_div_pow]
    exact generates_five.isPrimitiveRoot_power prime_factors (by decide +kernel)

end Bn254

end RankOne
