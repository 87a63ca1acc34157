/-!
# Powers by repeated squaring

`power a n` multiplies `a` with itself `n` times using one squaring per binary
digit of `n`. The recursion is on the number of binary digits, so it is
structural and needs no measure.
-/

namespace RankOne

/-- The power of `a` whose exponent is the low `digits` binary digits of `n`. -/
def powerDigits {α : Type} [One α] [Mul α] : Nat → α → Nat → α
  | 0, _, _ => 1
  | digits + 1, a, n =>
      let rest := powerDigits digits (a * a) (n / 2)
      if n % 2 = 1 then a * rest else rest

/-- `a` to the power `n`. -/
def power {α : Type} [One α] [Mul α] (a : α) (n : Nat) : α :=
  powerDigits (n.log2 + 1) a n

-- Powers of numbers are those of the language, also beside an algebra library.
attribute [local instance (2000)] instPowNat

/-- Every number fits into its own count of binary digits. -/
theorem lt_two_pow_digits (n : Nat) : n < 2 ^ (n.log2 + 1) := by
  by_cases hZero : n = 0
  · subst hZero
    decide
  · exact (Nat.log2_lt hZero).mp (Nat.lt_succ_self _)

@[simp] theorem powerDigits_zero {α : Type} [One α] [Mul α] (a : α) (n : Nat) :
    powerDigits 0 a n = 1 := rfl

end RankOne
