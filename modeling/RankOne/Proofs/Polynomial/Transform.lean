import RankOne.Proofs.Polynomial.Coefficients
import RankOne.Proofs.Polynomial.PowerTable

/-!
# The transform lists values

The recursion on even and odd coefficients computes the values of a polynomial
at the powers of a root of unity. Orthogonality of these powers turns the
transform with the inverse root into interpolation.
-/

namespace RankOne

variable {p : Nat}

section Transform

variable [Modulus p]

@[simp] theorem alternate_nil {α : Type} : alternate ([] : List α) = ([], []) :=
  rfl

@[simp] theorem alternate_cons {α : Type} (x : α) (xs : List α) :
    alternate (x :: xs) = (x :: (alternate xs).2, (alternate xs).1) := rfl

private theorem length_alternate {α : Type} (xs : List α) :
    (alternate xs).1.length = (xs.length + 1) / 2 ∧
      (alternate xs).2.length = xs.length / 2 := by
  induction xs with
  | nil => simp
  | cons x xs ih =>
      obtain ⟨hEven, hOdd⟩ := ih
      simp only [alternate_cons, List.length_cons, hEven, hOdd]
      exact ⟨by omega, trivial⟩

/-- The transform has as many values as coefficients, whatever its root. -/
theorem length_transform (digits : Nat) (w : Fp p) (coefficients : List (Fp p))
    (hLength : coefficients.length = 2 ^ digits) :
    (transform digits w coefficients).length = 2 ^ digits := by
  induction digits generalizing w coefficients with
  | zero => exact hLength
  | succ digits ih =>
      obtain ⟨hEvenLength, hOddLength⟩ := length_alternate coefficients
      have hHalves : coefficients.length = 2 ^ digits + 2 ^ digits := by
        rw [hLength, pow_succ, mul_two]
      have hEven := ih (w * w) (alternate coefficients).1 (by omega)
      have hOdd := ih (w * w) (alternate coefficients).2 (by omega)
      rw [transform, pow_succ, mul_two]
      simp only [List.length_append, List.length_zipWith, hEven, hOdd,
        length_geometric, min_self]

/-- A polynomial is its even part and its odd part, both in the square of the
variable. -/
private theorem evaluatePolynomial_alternate (xs : List (Fp p)) (x : Fp p) :
    evaluatePolynomial xs x =
      evaluatePolynomial (alternate xs).1 (x * x) +
        x * evaluatePolynomial (alternate xs).2 (x * x) := by
  induction xs with
  | nil => simp [evaluatePolynomial]
  | cons c xs ih =>
      have hSplit : ∀ rest : List (Fp p),
          evaluatePolynomial (c :: rest) (x * x) =
            evaluatePolynomial rest (x * x) * (x * x) + c :=
        fun _ => rfl
      show evaluatePolynomial xs x * x + c = _
      rw [alternate_cons, hSplit, ih]
      ring

/-- The base is the root of unity that the recursion needs: half a turn is minus
one, as long as there is half a turn. -/
def HalfTurn (digits : Nat) (w : Fp p) : Prop :=
  ∀ half, digits = half + 1 → w ^ 2 ^ half = -1

private theorem HalfTurn.square {digits : Nat} {w : Fp p}
    (h : HalfTurn (digits + 1) w) :
    HalfTurn digits (w * w) := by
  intro half hDigits
  rw [← h digits rfl, hDigits, ← pow_two, ← pow_mul, ← pow_succ']

/-- The transform lists the values at the powers of its root, in order. -/
theorem transform_eq_map (digits : Nat) (w : Fp p) (coefficients : List (Fp p))
    (hLength : coefficients.length = 2 ^ digits) (hTurn : HalfTurn digits w) :
    transform digits w coefficients =
      (List.range (2 ^ digits)).map fun i =>
        evaluatePolynomial coefficients (w ^ i) := by
  induction digits generalizing w coefficients with
  | zero =>
      obtain ⟨c, rfl⟩ := List.length_eq_one_iff.mp hLength
      simp [transform, evaluatePolynomial]
  | succ digits ih =>
      obtain ⟨hEvenLength, hOddLength⟩ := length_alternate coefficients
      have hEven : transform digits (w * w) (alternate coefficients).1 =
          (List.range (2 ^ digits)).map fun i =>
            evaluatePolynomial (alternate coefficients).1 ((w * w) ^ i) := by
        refine ih (w * w) _ ?_ hTurn.square
        rw [hEvenLength, hLength, pow_succ]
        omega
      have hOdd : transform digits (w * w) (alternate coefficients).2 =
          (List.range (2 ^ digits)).map fun i =>
            evaluatePolynomial (alternate coefficients).2 ((w * w) ^ i) := by
        refine ih (w * w) _ ?_ hTurn.square
        rw [hOddLength, hLength, pow_succ]
        omega
      have hHalf : w ^ 2 ^ digits = -1 := hTurn digits rfl
      have hSquare : ∀ i, (w * w) ^ i = w ^ i * w ^ i := fun i => mul_pow w w i
      have hTurned : ∀ i, w ^ (2 ^ digits + i) = -w ^ i := by
        intro i
        rw [pow_add, hHalf, neg_one_mul]
      have hDouble : 2 ^ (digits + 1) = 2 ^ digits + 2 ^ digits := by
        rw [pow_succ]
        omega
      rw [transform, hEven, hOdd, geometric_eq_map, hDouble, List.range_add,
        List.map_append, List.map_map]
      simp only [List.zipWith_map, List.zipWith_self, Function.comp_def]
      congr 1
      · refine List.map_congr_left fun i _ => ?_
        rw [evaluatePolynomial_alternate coefficients (w ^ i), hSquare]
        ring
      · refine List.map_congr_left fun i _ => ?_
        rw [evaluatePolynomial_alternate coefficients (w ^ (2 ^ digits + i)),
          hTurned, hSquare, neg_mul_neg]
        ring

end Transform

/-! ## Orthogonality -/

section Orthogonality

variable [Fact p.Prime]

/-- The powers of a primitive root of unity sum up to nothing, unless they are
all one. -/
theorem sum_pow_mul_inv_pow {n : Nat} {w w' : Fp p} (hw : IsPrimitiveRoot w n)
    (hInv : w * w' = 1) {i j : Nat} (hi : i < n) (hj : j < n) :
    ∑ k ∈ Finset.range n, (w ^ i * w' ^ j) ^ k = if i = j then (n : Fp p)
      else 0 := by
  split
  · next hSame =>
      subst hSame
      simp [← mul_pow, hInv]
  · next hOther =>
      have hRatio : w ^ i * w' ^ j ≠ 1 := by
        intro hOne
        apply hOther
        apply hw.pow_inj hi hj
        calc w ^ i = w ^ i * (w * w') ^ j := by rw [hInv, one_pow, mul_one]
          _ = w ^ i * w' ^ j * w ^ j := by rw [mul_pow]; ring
          _ = w ^ j := by rw [hOne, one_mul]
      have hInvPow : w' ^ n = 1 := by
        calc w' ^ n = w ^ n * w' ^ n := by rw [hw.pow_eq_one, one_mul]
          _ = 1 := by rw [← mul_pow, hInv, one_pow]
      have hTotal : (w ^ i * w' ^ j) ^ n = 1 := by
        rw [mul_pow, ← pow_mul, ← pow_mul, mul_comm i, mul_comm j, pow_mul,
          pow_mul, hw.pow_eq_one, hInvPow, one_pow, one_pow, one_mul]
      have hGeometric := mul_geom_sum (w ^ i * w' ^ j) n
      rw [hTotal, sub_self] at hGeometric
      exact (mul_eq_zero.mp hGeometric).resolve_left (sub_ne_zero.mpr hRatio)

/-- The values at the powers of the inverse of a primitive root, taken for
coefficients, have the given coefficients as values at the powers of the root,
but for the number of points. -/
theorem sum_transform_mul_pow {n : Nat} {w w' : Fp p} (hw : IsPrimitiveRoot w n)
    (hInv : w * w' = 1) (f : Nat → Fp p) {i : Nat} (hi : i < n) :
    ∑ k ∈ Finset.range n,
      (∑ j ∈ Finset.range n, f j * (w' ^ k) ^ j) * (w ^ i) ^ k =
      (n : Fp p) * f i := by
  have hSwap : ∀ k j : Nat,
      f j * (w' ^ k) ^ j * (w ^ i) ^ k = f j * (w ^ i * w' ^ j) ^ k := by
    intro k j
    rw [mul_pow, ← pow_mul w', ← pow_mul w', mul_comm k j]
    ring
  calc
    ∑ k ∈ Finset.range n,
      (∑ j ∈ Finset.range n, f j * (w' ^ k) ^ j) * (w ^ i) ^ k
      = ∑ j ∈ Finset.range n, f j * ∑ k ∈ Finset.range n,
        (w ^ i * w' ^ j) ^ k := by
        simp only [Finset.sum_mul, Finset.mul_sum, hSwap]
        exact Finset.sum_comm
    _ = ∑ j ∈ Finset.range n, if i = j then f j * (n : Fp p) else 0 := by
        refine Finset.sum_congr rfl fun j hj => ?_
        rw [sum_pow_mul_inv_pow hw hInv hi (Finset.mem_range.mp hj),
          mul_ite, mul_zero]
    _ = (n : Fp p) * f i := by
        rw [Finset.sum_ite_eq, if_pos (Finset.mem_range.mpr hi), mul_comm]

end Orthogonality

end RankOne
