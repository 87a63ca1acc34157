import RankOne.Field.Power

/-!
# Residues modulo a prime

`Fp p` holds the canonical representative of a residue class: a natural number
below `p`. Sums and differences correct by one conditional subtraction, products
by one reduction, and the inverse is the power `p - 2`, which is the inverse of
every nonzero element when `p` is prime.

Nothing here assumes that `p` is prime; the operations are the ring operations
of the integers modulo `p` for every positive `p`.
-/

namespace RankOne

/-- What residues can be reduced by: a positive number. -/
class Modulus (p : Nat) : Prop where
  pos : 0 < p

instance (priority := high) (n : Nat) : Modulus (n + 1) := ⟨Nat.succ_pos n⟩

/-- A residue modulo `p`, held as its canonical representative. -/
structure Fp (p : Nat) where
  val : Nat
  isLt : val < p
deriving DecidableEq

namespace Fp

variable {p : Nat}

theorem pos_of_elem (a : Fp p) : 0 < p :=
  Nat.lt_of_le_of_lt (Nat.zero_le _) a.isLt

/-- The residue of a natural number. -/
def ofNat (p : Nat) [Modulus p] (n : Nat) : Fp p :=
  ⟨n % p, Nat.mod_lt _ Modulus.pos⟩

/-- The residue of an integer; negative integers count down from `p`. -/
def ofInt (p : Nat) [Modulus p] (z : Int) : Fp p :=
  ofNat p (z % (p : Int)).toNat

instance [Modulus p] : Zero (Fp p) := ⟨⟨0, Modulus.pos⟩⟩

instance [Modulus p] : One (Fp p) := ⟨ofNat p 1⟩

instance [Modulus p] : Inhabited (Fp p) := ⟨0⟩

/-- Sum, brought below `p` by at most one subtraction. -/
protected def add (a b : Fp p) : Fp p :=
  if h : a.val + b.val < p then ⟨a.val + b.val, h⟩
  else ⟨a.val + b.val - p, by have := a.isLt; have := b.isLt; omega⟩

/-- Difference, lifted by `p` when it would be negative. -/
protected def sub (a b : Fp p) : Fp p :=
  if h : b.val ≤ a.val then ⟨a.val - b.val, by have := a.isLt; omega⟩
  else ⟨a.val + p - b.val, by have := a.isLt; have := b.isLt; omega⟩

/-- The additive inverse: zero is its own, any other residue is counted down
from `p`. -/
protected def neg (a : Fp p) : Fp p :=
  if h : a.val = 0 then a else ⟨p - a.val, by have := a.isLt; omega⟩

/-- Product, reduced once. -/
protected def mul (a b : Fp p) : Fp p :=
  ⟨a.val * b.val % p, Nat.mod_lt _ a.pos_of_elem⟩

instance : Add (Fp p) := ⟨Fp.add⟩
instance : Sub (Fp p) := ⟨Fp.sub⟩
instance : Neg (Fp p) := ⟨Fp.neg⟩
instance : Mul (Fp p) := ⟨Fp.mul⟩

/-- The power `p - 2`: the multiplicative inverse of a nonzero element, and zero
for zero. -/
protected def inv [Modulus p] (a : Fp p) : Fp p :=
  if a = 0 then 0 else power a (p - 2)

instance [Modulus p] : Inv (Fp p) := ⟨Fp.inv⟩

instance [Modulus p] : Div (Fp p) := ⟨fun a b => a * b⁻¹⟩

/-- Number of binary digits of the modulus. -/
def bitLength (p : Nat) : Nat := p.log2 + 1

/-- Number of words of 64 bits that a residue fills. -/
def wordCount (p : Nat) : Nat := (bitLength p + 63) / 64

-- Powers of numbers are those of the language, also beside an algebra library.
attribute [local instance (2000)] instPowNat

/-- A residue fits into the binary digits of the modulus. -/
theorem val_lt_two_pow (a : Fp p) {digits : Nat} (h : bitLength p ≤ digits) :
    a.val < 2 ^ digits :=
  calc a.val < p := a.isLt
    _ < 2 ^ bitLength p := Nat.lt_log2_self
    _ ≤ 2 ^ digits := Nat.pow_le_pow_right (by decide) h

/-- A square root when `p` leaves remainder three modulo four: the power
`(p + 1) / 4`, kept only if it squares back. -/
def sqrt? [Modulus p] (a : Fp p) : Option (Fp p) :=
  let root := power a ((p + 1) / 4)
  if root * root = a then some root else none

@[ext] theorem ext {a b : Fp p} (h : a.val = b.val) : a = b := by
  cases a; cases b; simp only at h; subst h; rfl

@[simp] theorem val_ofNat [Modulus p] (n : Nat) : (ofNat p n).val = n % p := rfl

@[simp] theorem val_zero [Modulus p] : (0 : Fp p).val = 0 := rfl

@[simp] theorem val_one [Modulus p] : (1 : Fp p).val = 1 % p := rfl

theorem val_add (a b : Fp p) : (a + b).val = (a.val + b.val) % p := by
  have ha := a.isLt
  have hb := b.isLt
  show (Fp.add a b).val = _
  unfold Fp.add
  split
  · next h => exact (Nat.mod_eq_of_lt h).symm
  · next h =>
      show a.val + b.val - p = _
      rw [Nat.mod_eq_sub_mod (by omega), Nat.mod_eq_of_lt (by omega)]

theorem val_sub (a b : Fp p) : (a - b).val = (a.val + (p - b.val)) % p := by
  have ha := a.isLt
  have hb := b.isLt
  show (Fp.sub a b).val = _
  unfold Fp.sub
  split
  · next h =>
      show a.val - b.val = _
      rw [Nat.mod_eq_sub_mod (by omega), Nat.mod_eq_of_lt (by omega)]
      omega
  · next h =>
      show a.val + p - b.val = _
      rw [Nat.mod_eq_of_lt (by omega)]
      omega

theorem val_neg (a : Fp p) : (-a).val = (p - a.val) % p := by
  have ha := a.isLt
  show (Fp.neg a).val = _
  unfold Fp.neg
  split
  · next h => rw [h, Nat.sub_zero, Nat.mod_self]
  · next h =>
      show p - a.val = _
      exact (Nat.mod_eq_of_lt (by omega)).symm

@[simp] theorem val_mul (a b : Fp p) : (a * b).val = a.val * b.val % p := rfl

end Fp

end RankOne
