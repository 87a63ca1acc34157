import RankOne.Curve.Bls12381
import RankOne.Curve.Bn254
import RankOne.Proofs.Field.Ring
import RankOne.Proofs.Outcome
import RankOne.Witness.Solver

/-!
# Bits of residues

A bit hint yields the bit of its first input at the position that its second
input stands for. Both are residues, so a position may be any number below the
modulus; only the positions of the binary digits of the modulus are served. The
bits at these positions make up the residue.

A residue is held as words of 64 bits. A position is narrowed to the lowest of
its words once the others have been found to be zero, and the bit is taken from
the word that holds it. This is the bit of the number itself: going up by one
word takes 64 from the position, and divides the number by the power of two that
a word fills.

## Main results

* `bitOfWords_wordsOf`, `narrow?_wordsOf` — bits and positions can be read off
  the words;
* `HintFunction.ithBit_eq_ithBitOnWords` — selecting a bit on words is selecting
  a bit;
* `Fp.sum_bit` — a residue is the sum of its bits;
* `Solver.ithBit_exact` — what bit hints yield, and when.
-/

namespace RankOne

/-! ## Numbers as words -/

/-- The low `count` words of 64 bits of a number, least significant first. -/
def wordsOf : Nat → Nat → List UInt64
  | 0, _ => []
  | count + 1, n => UInt64.ofNat n :: wordsOf count (n / 2 ^ 64)

/-- The bit of a number that is given by its words: the word that holds the
place is masked. No bits are behind the last word. -/
def bitOfWords (words : List UInt64) (place : Nat) : Bool :=
  match words[place / 64]? with
  | some word => word &&& (1 <<< UInt64.ofNat (place % 64)) != 0
  | none => false

/-- The position that words stand for, if it is below the bound: the lowest
word, unless another one is not zero. -/
def narrow? (bound : UInt64) : List UInt64 → Option UInt64
  | [] => none
  | low :: high => if high.any (· != 0) || bound ≤ low then none else some low

private theorem toNat_mask {place : Nat} (hPlace : place < 64) :
    ((1 : UInt64) <<< UInt64.ofNat place).toNat = 2 ^ place := by
  have hSmall : place % 2 ^ 64 % 64 = place := by omega
  have hFits : 2 ^ place < 2 ^ 64 := Nat.pow_lt_pow_right (by decide) hPlace
  rw [UInt64.toNat_shiftLeft, UInt64.toNat_ofNat', hSmall, UInt64.toNat_one,
    Nat.one_shiftLeft, Nat.mod_eq_of_lt hFits]

/-- Masking a word leaves something exactly if the word has the bit. -/
private theorem masked_ne_zero (word : UInt64) {place : Nat}
    (hPlace : place < 64) :
    (word &&& (1 <<< UInt64.ofNat place) != 0) = word.toNat.testBit place := by
  rw [Bool.eq_iff_iff, bne_iff_ne, ne_eq, ← UInt64.toNat_inj, UInt64.toNat_and,
    toNat_mask hPlace, Nat.and_two_pow, UInt64.toNat_zero]
  cases word.toNat.testBit place <;> simp

/-- The lowest word holds the first 64 bits. -/
private theorem bitOfWords_cons_low (word : UInt64) (words : List UInt64)
    {place : Nat} (hPlace : place < 64) :
    bitOfWords (word :: words) place = word.toNat.testBit place := by
  have hWord : place / 64 = 0 := by omega
  have hSame : place % 64 = place := by omega
  rw [bitOfWords, hWord, hSame]
  exact masked_ne_zero word hPlace

/-- The other words hold the bits from there on. -/
private theorem bitOfWords_cons_high (word : UInt64) (words : List UInt64)
    (place : Nat) :
    bitOfWords (word :: words) (place + 64) = bitOfWords words place := by
  have hWord : (place + 64) / 64 = place / 64 + 1 := by omega
  have hSame : (place + 64) % 64 = place % 64 := by omega
  rw [bitOfWords, bitOfWords, hWord, hSame, List.getElem?_cons_succ]

/-- What is left of a number has room in one word less. -/
private theorem div_word_lt {count n : Nat} (h : n < 2 ^ (64 * (count + 1))) :
    n / 2 ^ 64 < 2 ^ (64 * count) := by
  rw [Nat.mul_succ, Nat.add_comm, pow_add] at h
  exact Nat.div_lt_of_lt_mul h

/-- Words that have room for a number hold its bits. Induction over the words: a
place is in the lowest of them, or 64 places further down in what is left of the
number. -/
theorem bitOfWords_wordsOf {count n : Nat} (h : n < 2 ^ (64 * count))
    (place : Nat) :
    bitOfWords (wordsOf count n) place = n.testBit place := by
  induction count generalizing n place with
  | zero =>
      have hZero : n = 0 := by simpa using h
      subst hZero
      rw [Nat.zero_testBit]
      rfl
  | succ count ih =>
      by_cases hPlace : place < 64
      · rw [wordsOf, bitOfWords_cons_low _ _ hPlace, UInt64.toNat_ofNat',
          Nat.testBit_mod_two_pow, decide_eq_true hPlace, Bool.true_and]
      · obtain ⟨rest, rfl⟩ := Nat.exists_eq_add_of_le' (Nat.le_of_not_lt hPlace)
        rw [wordsOf, bitOfWords_cons_high, ih (div_word_lt h),
          Nat.testBit_div_two_pow]

/-- Words that have room for a number are all zero exactly if the number is. -/
private theorem any_wordsOf {count n : Nat} (h : n < 2 ^ (64 * count)) :
    (wordsOf count n).any (· != 0) = decide (n ≠ 0) := by
  induction count generalizing n with
  | zero =>
      have hZero : n = 0 := by simpa using h
      subst hZero
      rfl
  | succ count ih =>
      rw [wordsOf, List.any_cons, ih (div_word_lt h), Bool.eq_iff_iff,
        Bool.or_eq_true, bne_iff_ne, ne_eq, ← UInt64.toNat_inj,
        UInt64.toNat_ofNat', UInt64.toNat_zero, decide_eq_true_iff,
        decide_eq_true_iff]
      omega

/-- Narrowing finds the number exactly if it is below the bound. -/
theorem narrow?_wordsOf (bound : UInt64) {count n : Nat}
    (h : n < 2 ^ (64 * (count + 1))) :
    narrow? bound (wordsOf (count + 1) n) =
      if n < bound.toNat then some (UInt64.ofNat n) else none := by
  have hBound : bound.toNat < 2 ^ 64 := bound.toNat_lt
  have hNarrow : ((wordsOf count (n / 2 ^ 64)).any (· != 0) ||
      decide (bound ≤ UInt64.ofNat n)) =
      true ↔ ¬ n < bound.toNat := by
    rw [any_wordsOf (div_word_lt h), Bool.or_eq_true, decide_eq_true_iff,
      decide_eq_true_iff, UInt64.le_iff_toNat_le, UInt64.toNat_ofNat']
    omega
  rw [wordsOf, narrow?]
  by_cases hBelow : n < bound.toNat
  · rw [if_pos hBelow, if_neg fun hOut => hNarrow.mp hOut hBelow]
  · rw [if_neg hBelow, if_pos (hNarrow.mpr hBelow)]

/-- The bits below `count` make up the number modulo the power of two. -/
private theorem sum_testBit (n count : Nat) :
    ∑ place ∈ Finset.range count,
      (n.testBit place).toNat * 2 ^ place = n % 2 ^ count := by
  induction count with
  | zero => rw [Finset.sum_range_zero, pow_zero, Nat.mod_one]
  | succ count ih =>
      rw [Finset.sum_range_succ, ih, pow_succ, Nat.mod_mul, Nat.toNat_testBit,
        Nat.mul_comm]

/-! ## Residues -/

namespace Fp

variable {p : Nat}

instance : Fintype (Fp p) :=
  Fintype.ofBijective (fun i : Fin p => (⟨i.val, i.isLt⟩ : Fp p))
    ⟨fun _ _ h => Fin.ext (congrArg val h), fun a => ⟨⟨a.val, a.isLt⟩, rfl⟩⟩

/-- The words of a residue. -/
def words (x : Fp p) : List UInt64 := wordsOf (wordCount p) x.val

/-- The words have room for the residue. -/
private theorem val_lt_two_pow_words (x : Fp p) :
    x.val < 2 ^ (64 * wordCount p) := by
  apply x.val_lt_two_pow
  unfold wordCount
  omega

private theorem bitOfWords_words (x : Fp p) (place : Nat) :
    bitOfWords x.words place = x.val.testBit place :=
  bitOfWords_wordsOf x.val_lt_two_pow_words place

private theorem narrow?_words (bound : UInt64) (x : Fp p) :
    narrow? bound x.words = if x.val < bound.toNat then
      some (UInt64.ofNat x.val) else none := by
  -- A modulus has a binary digit, so there is a lowest word.
  have hSome : wordCount p - 1 + 1 = wordCount p := by
    unfold wordCount bitLength
    omega
  have hRoom := x.val_lt_two_pow_words
  rw [words, ← hSome] at *
  exact narrow?_wordsOf bound hRoom

variable [Modulus p]

/-- There are no more positions than residues. -/
private theorem bitLength_le (p : Nat) [Modulus p] : bitLength p ≤ p :=
  (Nat.log2_lt Modulus.pos.ne').mpr Nat.lt_two_pow_self

/-- A sum over the residues below a bound is a sum over numbers. -/
private theorem sum_val_lt {bound : Nat} (hBound : bound ≤ p) (f : Nat → Nat) :
    ∑ i : Fp p with i.val < bound, f i.val = ∑ n ∈ Finset.range bound, f n := by
  refine Finset.sum_nbij' val (ofNat p) ?_ ?_ ?_ ?_ ?_
  · intro i hi
    simpa using hi
  · intro n hn
    have hLt : n < bound := Finset.mem_range.mp hn
    simpa [Nat.mod_eq_of_lt (Nat.lt_of_lt_of_le hLt hBound)] using hLt
  · intro i _
    exact Fp.ext (Nat.mod_eq_of_lt i.isLt)
  · intro n hn
    exact Nat.mod_eq_of_lt (Nat.lt_of_lt_of_le (Finset.mem_range.mp hn) hBound)
  · intro i _
    rfl

/-- The bit of a residue, as a residue. -/
def bit (x : Fp p) (place : Nat) : Fp p := if x.val.testBit place then 1 else 0

private theorem bit_eq_zero_or_one (x : Fp p) (place : Nat) :
    x.bit place = 0 ∨ x.bit place = 1 := by
  unfold bit
  cases x.val.testBit place with
  | false => exact Or.inl rfl
  | true => exact Or.inr rfl

/-- A residue that has a bit is not zero, so that one is not zero either. -/
private theorem val_bit (x : Fp p) (place : Nat) :
    (x.bit place).val = (x.val.testBit place).toNat := by
  unfold bit
  cases hBit : x.val.testBit place with
  | false => rfl
  | true =>
      have hPower : 2 ^ place ≤ x.val := Nat.ge_two_pow_of_testBit hBit
      have hLarge : 1 < p :=
        Nat.lt_of_le_of_lt (Nat.le_trans Nat.one_le_two_pow hPower) x.isLt
      exact Nat.mod_eq_of_lt hLarge

/-- A residue is the sum of its bits, each times its power of two. -/
theorem sum_bit (x : Fp p) :
    ∑ i : Fp p with i.val < bitLength p,
      (x.bit i.val).val * 2 ^ i.val = x.val := by
  simp only [val_bit]
  rw [sum_val_lt (bitLength_le p) fun place => (x.val.testBit place).toNat * 2 ^
    place, sum_testBit, Nat.mod_eq_of_lt (x.val_lt_two_pow le_rfl)]

/-- Residues with the same bits are the same. -/
private theorem ext_bit {x y : Fp p}
    (h : ∀ i : Fp p, i.val < bitLength p → x.bit i.val = y.bit i.val) :
    x = y := by
  apply Fp.ext
  rw [← x.sum_bit, ← y.sum_bit]
  refine Finset.sum_congr rfl fun i hi => ?_
  rw [h i (Finset.mem_filter.mp hi).2]

end Fp

/-! ## The hint function -/

variable {p : Nat} [Modulus p]

namespace HintFunction

/-- Bit selection on words. The number of binary digits of the modulus is a
word, too. -/
def ithBitOnWords : HintFunction p
  | [x, index], 1 =>
      match narrow? (UInt64.ofNat (Fp.bitLength p)) index.words with
      | some place =>
          .ok (Vector.replicate 1 (if bitOfWords x.words place.toNat then 1
            else 0))
      | none => .error (.bitOutOfRange index.val)
  | inputs, outputs => .error (.ithBitArity inputs.length outputs)

/-- So far as the binary digits of the modulus can be counted in a word, a bit
may be selected on words. -/
theorem ithBit_eq_ithBitOnWords (hBits : Fp.bitLength p < 2 ^ 64) :
    (ithBit : HintFunction p) = ithBitOnWords := by
  have hBound : (UInt64.ofNat (Fp.bitLength p)).toNat = Fp.bitLength p :=
    UInt64.toNat_ofNat_of_lt' hBits
  funext inputs outputs
  match inputs, outputs with
  | [x, index], 1 =>
      simp only [ithBit, ithBitOnWords, Fp.narrow?_words, hBound]
      split
      · next hPlace =>
          have hSame : (UInt64.ofNat index.val).toNat = index.val :=
            UInt64.toNat_ofNat_of_lt' (Nat.lt_trans hPlace hBits)
          simp only [hSame, Fp.bitOfWords_words]
      · rfl
  -- In all other cases both complain about the numbers of inputs and outputs.
  | [], _ => rfl
  | [_], _ => rfl
  | [_, _], 0 => rfl
  | [_, _], _ + 2 => rfl
  | _ :: _ :: _ :: _, _ => rfl

end HintFunction

namespace Solver

variable {solver : Solver p} {hint : Hint p}

private theorem applyHint_ithBit (hKind : hint.kind = .ithBit)
    (hOne : hint.wires.length = 1) (x i : Fp p) : solver.applyHint hint [x, i] =
      if i.val < Fp.bitLength p then .ok [x.bit i.val]
      else .error (.hintFailed hint.firstWire (.bitOutOfRange i.val)) := by
  obtain ⟨kind, inputs, wires⟩ := hint
  obtain ⟨wire, rfl⟩ := List.length_eq_one_iff.mp hOne
  cases hKind
  simp only [applyHint, functionOf, List.length_singleton, HintFunction.ithBit]
  by_cases hPlace : i.val < Fp.bitLength p
  · simp only [if_pos hPlace]
    rfl
  · simp only [if_neg hPlace]

/-- A bit hint with one output yields, for each position below the number of
binary digits of the modulus, zero or one, and these make up its first input; so
the first input is determined by its bits. At any other position the hint fails,
whatever the lowest word of the position is. So far as the binary digits of the
modulus can be counted in a word, all this is so on words. -/
theorem ithBit_exact (solver : Solver p) (hint : Hint p)
    (hKind : hint.kind = .ithBit) (hOne : hint.wires.length = 1) (x : Fp p) :
    (∃ bit : Fp p → Fp p,
      (∀ i, solver.applyHint hint [x, i] =
        if i.val < Fp.bitLength p then .ok [bit i]
        else .error (.hintFailed hint.firstWire (.bitOutOfRange i.val))) ∧
      (∀ i, bit i = 0 ∨ bit i = 1) ∧
      ∑ i : Fp p with i.val < Fp.bitLength p, (bit i).val * 2 ^ i.val = x.val) ∧
    (∀ y, (∀ i : Fp p, i.val < Fp.bitLength p →
      solver.applyHint hint [x, i] = solver.applyHint hint [y, i]) → x = y) ∧
    (Fp.bitLength p < 2 ^ 64 →
      (HintFunction.ithBit : HintFunction p) = HintFunction.ithBitOnWords) := by
  refine ⟨⟨fun i => x.bit i.val, applyHint_ithBit hKind hOne x,
    fun i => x.bit_eq_zero_or_one i.val, x.sum_bit⟩,
      fun y hSame => Fp.ext_bit fun i hPlace => ?_,
    HintFunction.ithBit_eq_ithBitOnWords⟩
  have hOutputs := hSame i hPlace
  rw [applyHint_ithBit hKind hOne, applyHint_ithBit hKind hOne, if_pos hPlace,
    if_pos hPlace] at hOutputs
  injection hOutputs with hList
  injection hList

end Solver

/-! ## The scalar fields of the curves -/

/-- A hint for the bit of wire two at the position on wire one. -/
def bitHint (p : Nat) : Hint p :=
  ⟨.ithBit, [.expression [⟨0, 2⟩], .expression [⟨0, 1⟩]], [3]⟩

/-- A system for the bit `b` of a secret `x` at a public position `i`. Its wires
are one, `i`, `x` and `b`, and the constraints are `b · b = b` and
`(i + x) · 0 = 0`. -/
def bitSystem (p : Nat) [Modulus p] : FlatSystem p where
  layout := ⟨2, 1, 1⟩
  constraints := #[⟨[⟨0, 3⟩], [⟨0, 3⟩], [⟨0, 3⟩]⟩, ⟨[⟨0, 1⟩, ⟨0, 2⟩], [], []⟩]
  coefficients := #[1]
  hints := #[bitHint p]

/-- On eleven, the hint serves the position three but not `2 ^ 64 + 3`, whose
lowest word is three; some position tells eleven from twelve; and all this is so
on words. -/
structure ServesEleven {p : Nat} [Modulus p] (solver : Solver p) : Prop where
  compiled : CompiledSystem.compile {} (bitSystem p) = .ok solver.system
  words : (Fp.ofNat p (2 ^ 64 + 3)).words = [3, 1, 0, 0]
  served : ∃ bit,
    solver.applyHint (bitHint p) [Fp.ofNat p 11, Fp.ofNat p 3] = .ok [bit] ∧
    (bit = 0 ∨ bit = 1)
  refused :
    solver.applyHint (bitHint p) [Fp.ofNat p 11, Fp.ofNat p (2 ^ 64 + 3)] =
      .error (.hintFailed 3 (.bitOutOfRange (2 ^ 64 + 3)))
  told : ¬ ∀ i : Fp p, i.val < Fp.bitLength p →
    solver.applyHint (bitHint p) [Fp.ofNat p 11, i] =
      solver.applyHint (bitHint p) [Fp.ofNat p 12, i]
  onWords : (HintFunction.ithBit : HintFunction p) = HintFunction.ithBitOnWords

/-- So it is in both fields. -/
theorem ithBit_exact_scalarFields :
    (∃ solver : Solver Bn254.r, ServesEleven solver) ∧
      ∃ solver : Solver Bls12381.r, ServesEleven solver := by
  have hServes : ∀ (p : Nat) [Modulus p],
      ((CompiledSystem.compile {} (bitSystem p)).toOption.isSome = true ∧
        (Fp.ofNat p (2 ^ 64 + 3)).words = [3, 1, 0, 0] ∧
        (Fp.ofNat p 3).val < Fp.bitLength p ∧ Fp.bitLength p < 2 ^ 64 ∧
        (Fp.ofNat p (2 ^ 64 + 3)).val = 2 ^ 64 + 3 ∧
          Fp.ofNat p 11 ≠ Fp.ofNat p 12) →
      ∃ solver : Solver p, ServesEleven solver := by
    rintro p _ ⟨hRun, hWords, hInside, hShort, hOutside, hOther⟩
    obtain ⟨system, hCompile⟩ := isSome_toOption.mp hRun
    obtain ⟨⟨bit, hApply, hBit, -⟩, hBits, hOnWords⟩ :=
      Solver.ithBit_exact (Solver.ofSystem system) (bitHint p) rfl rfl
        (Fp.ofNat p 11)
    refine ⟨Solver.ofSystem system,
      { compiled := hCompile
        words := hWords
        served := ⟨_, (hApply _).trans (if_pos hInside), hBit _⟩
        refused := (hApply _).trans ?_
        told := fun hSame => hOther (hBits _ hSame)
        onWords := hOnWords hShort }⟩
    rw [hOutside, if_neg (by omega)]
    rfl
  exact ⟨hServes Bn254.r (by decide +kernel),
    hServes Bls12381.r (by decide +kernel)⟩

end RankOne
