import Mathlib
import RankOne.Field.Prime

/-!
# The ring of residues

Every operation on residues is the operation of the integers modulo `p` on the
canonical representatives, so residues form a commutative ring, and a field when
the modulus is prime. Repeated squaring computes the power of that ring.
-/

namespace RankOne

/-! ## Repeated squaring -/

/-- Squaring the base uses up one binary digit of the exponent. -/
private theorem powerDigits_eq_pow {M : Type} [Monoid M] (digits : Nat) (a : M)
    (n : Nat) (hn : n < 2 ^ digits) : powerDigits digits a n = a ^ n := by
  induction digits generalizing a n with
  | zero =>
      have hZero : n = 0 := by simpa using hn
      rw [hZero, powerDigits_zero, pow_zero]
  | succ digits ih =>
      have hHalf : n / 2 < 2 ^ digits := by
        rw [pow_succ] at hn
        omega
      have hRest : powerDigits digits (a * a) (n / 2) = a ^ (2 * (n / 2)) := by
        rw [ih (a * a) (n / 2) hHalf, pow_mul, pow_two]
      simp only [powerDigits, hRest]
      split
      · next hOdd =>
          rw [← pow_succ']
          congr 1
          omega
      · next hEven =>
          congr 1
          omega

theorem power_eq_pow {M : Type} [Monoid M] (a : M) (n : Nat) :
    power a n = a ^ n :=
  powerDigits_eq_pow _ a n (lt_two_pow_digits n)

/-- Repeated squaring commutes with every map that keeps one and products. -/
private theorem map_powerDigits {M N : Type} [One M] [Mul M] [One N] [Mul N]
    (f : M → N) (hOne : f 1 = 1) (hMul : ∀ a b, f (a * b) = f a * f b)
    (digits : Nat) (a : M) (n : Nat) :
    f (powerDigits digits a n) = powerDigits digits (f a) n := by
  induction digits generalizing a n with
  | zero => exact hOne
  | succ digits ih =>
      simp only [powerDigits]
      split
      · rw [hMul, ih, hMul]
      · rw [ih, hMul]

namespace Fp

variable {p : Nat}

/-! ## Residues as integers modulo `p` -/

/-- The class of a residue in the integers modulo `p`. -/
def toZMod (a : Fp p) : ZMod p := a.val

theorem toZMod_injective : Function.Injective (toZMod : Fp p → ZMod p) := by
  intro a b h
  have hMod : a.val % p = b.val % p := (ZMod.natCast_eq_natCast_iff' _ _ _).mp h
  apply Fp.ext
  rwa [Nat.mod_eq_of_lt a.isLt, Nat.mod_eq_of_lt b.isLt] at hMod

private theorem cast_complement (a : Fp p) :
    ((p - a.val : Nat) : ZMod p) = -(a.val : ZMod p) := by
  rw [Nat.cast_sub a.isLt.le, ZMod.natCast_self, zero_sub]

private theorem toZMod_add (a b : Fp p) :
    (a + b).toZMod = a.toZMod + b.toZMod := by
  simp only [toZMod, val_add, ZMod.natCast_mod, Nat.cast_add]

private theorem toZMod_mul (a b : Fp p) :
    (a * b).toZMod = a.toZMod * b.toZMod := by
  simp only [toZMod, val_mul, ZMod.natCast_mod, Nat.cast_mul]

private theorem toZMod_neg (a : Fp p) : (-a).toZMod = -a.toZMod := by
  simp only [toZMod, val_neg, ZMod.natCast_mod, cast_complement]

private theorem toZMod_sub (a b : Fp p) :
    (a - b).toZMod = a.toZMod - b.toZMod := by
  simp only [toZMod, val_sub, ZMod.natCast_mod, Nat.cast_add, cast_complement,
    sub_eq_add_neg]

variable [Modulus p]

private theorem toZMod_zero : (0 : Fp p).toZMod = 0 := by
  simp [toZMod]

private theorem toZMod_ofNat (n : Nat) : (ofNat p n).toZMod = n := by
  simp only [toZMod, val_ofNat, ZMod.natCast_mod]

theorem toZMod_one : (1 : Fp p).toZMod = 1 := by
  have h : (ofNat p 1).toZMod = (1 : Nat) := toZMod_ofNat 1
  rwa [Nat.cast_one] at h

theorem toZMod_power (a : Fp p) (n : Nat) :
    (power a n).toZMod = a.toZMod ^ n := by
  rw [power, map_powerDigits toZMod toZMod_one toZMod_mul]
  exact power_eq_pow a.toZMod n

private theorem toZMod_ofInt (z : Int) : (ofInt p z).toZMod = z := by
  have hPos : (p : Int) ≠ 0 := by exact_mod_cast (Modulus.pos (p := p)).ne'
  have hCast : (((z % (p : Int)).toNat : Int) : ZMod p) = z := by
    rw [Int.toNat_of_nonneg (Int.emod_nonneg z hPos), ZMod.intCast_mod]
  rw [ofInt, toZMod_ofNat]
  exact_mod_cast hCast

/-! ## The ring -/

instance : NatCast (Fp p) := ⟨ofNat p⟩
instance : IntCast (Fp p) := ⟨ofInt p⟩
instance : SMul Nat (Fp p) := ⟨fun n a => ofNat p n * a⟩
instance : SMul Int (Fp p) := ⟨fun z a => ofInt p z * a⟩
instance : Pow (Fp p) Nat := ⟨power⟩

instance : CommRing (Fp p) :=
  toZMod_injective.commRing toZMod toZMod_zero toZMod_one toZMod_add
    toZMod_mul toZMod_neg toZMod_sub
    (fun n a => by
      rw [nsmul_eq_mul, ← toZMod_ofNat n, ← toZMod_mul]
      rfl)
    (fun z a => by
      rw [zsmul_eq_mul, ← toZMod_ofInt z, ← toZMod_mul]
      rfl)
    toZMod_power toZMod_ofNat toZMod_ofInt

@[simp] theorem cast_modulus : ((p : Nat) : Fp p) = 0 := by
  apply Fp.ext
  show p % p = 0
  exact Nat.mod_self p

/-! ## The field -/

section Prime

instance modulus_of_prime [Fact p.Prime] : Modulus p :=
  ⟨(Fact.out : p.Prime).pos⟩

variable [Fact p.Prime]

instance : Nontrivial (Fp p) :=
  ⟨0, 1, fun h => by
    have hOne : 1 % p = 1 := Nat.mod_eq_of_lt (Fact.out : p.Prime).one_lt
    have hVal := congrArg val h
    rw [val_zero, val_one, hOne] at hVal
    exact Nat.zero_ne_one hVal⟩

/-- The power `p - 2` inverts a nonzero residue, by Fermat's little theorem. -/
theorem mul_inv_of_ne_zero {a : Fp p} (ha : a ≠ 0) : a * a⁻¹ = 1 := by
  have hClass : a.toZMod ≠ 0 := by
    intro h
    exact ha (toZMod_injective (h.trans toZMod_zero.symm))
  have hExponent : p - 2 + 1 = p - 1 := by
    have := (Fact.out : p.Prime).two_le
    omega
  have hInv : a⁻¹ = power a (p - 2) := if_neg ha
  apply toZMod_injective
  rw [hInv, toZMod_mul, toZMod_power, ← pow_succ', hExponent, toZMod_one]
  exact ZMod.pow_card_sub_one_eq_one hClass

instance : Field (Fp p) where
  inv := (·⁻¹)
  div := (· / ·)
  div_eq_mul_inv _ _ := rfl
  mul_inv_cancel _ ha := mul_inv_of_ne_zero ha
  inv_zero := by
    show Fp.inv 0 = 0
    exact if_pos rfl
  nnqsmul := _
  nnqsmul_def _ _ := rfl
  qsmul := _
  qsmul_def _ _ := rfl

end Prime

end Fp

end RankOne
