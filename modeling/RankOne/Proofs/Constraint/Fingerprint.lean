import Mathlib.Algebra.Group.Nat.Defs
import RankOne.Constraint.Fingerprint

/-!
# What the digest of a system commits to

The byte string under the digest is put together from numbers of fixed width,
tags, and lists that begin with their lengths. Read from the front, each part
ends where its own bytes say, so that one string is the string of one system
only: of one layout, one list of constraints with their slots and wires in
order, one coefficient table and one list of hints.

Lengths and the numbers of output wires are written as 64-bit words. The
statement is about systems in which they fit, as they do in all that can be held
in memory.
-/

namespace RankOne

/-- Among the values that satisfy `Fits`, the bytes of a value followed by
anything determine the value and what follows. -/
def UniquelyReadable {α : Type} (bytes : α → List UInt8) (Fits : α → Prop) :
    Prop :=
  ∀ (first second : α) (rest rest' : List UInt8), Fits first → Fits second →
    bytes first ++ rest = bytes second ++ rest' → first = second ∧ rest = rest'

/-- Lists whose lengths are 64-bit words. -/
abbrev Countable {α : Type} (items : List α) : Prop := items.length < 2 ^ 64

/-! ## Numbers and lists -/

/-- Numbers that fit into a fixed width are read back. -/
private theorem uniquelyReadable_littleEndian (width : Nat) :
    UniquelyReadable (littleEndian width) (· < 256 ^ width) := by
  intro first second rest rest' hFirst hSecond h
  obtain ⟨hBytes, hRest⟩ := List.append_inj h (by simp)
  have hNumber := congrArg ofLittleEndian hBytes
  rw [ofLittleEndian_littleEndian, ofLittleEndian_littleEndian,
    Nat.mod_eq_of_lt hFirst, Nat.mod_eq_of_lt hSecond] at hNumber
  exact ⟨hNumber, hRest⟩

namespace UniquelyReadable

variable {α β : Type} {bytes : α → List UInt8} {Fits : α → Prop}

/-- A value that is written as another one, by which it is determined, is read
back. -/
private theorem comap (h : UniquelyReadable bytes Fits) {f : β → α}
    (hf : ∀ b b', f b = f b' → b = b') :
    UniquelyReadable (fun b => bytes (f b)) (fun b => Fits (f b)) := by
  intro first second rest rest' hFirst hSecond hBytes
  obtain ⟨hSame, hRest⟩ := h _ _ _ _ hFirst hSecond hBytes
  exact ⟨hf first second hSame, hRest⟩

/-- Fewer values are still read back. -/
private theorem mono (h : UniquelyReadable bytes Fits) {Fits' : α → Prop}
    (hFits : ∀ a, Fits' a → Fits a) : UniquelyReadable bytes Fits' :=
  fun _ _ _ _ hFirst hSecond hBytes =>
    h _ _ _ _ (hFits _ hFirst) (hFits _ hSecond) hBytes

/-- As many items as one knows of are read back one by one. -/
private theorem flatMap (h : UniquelyReadable bytes Fits)
    {items items' : List α} {rest rest' : List UInt8}
    (hLength : items.length = items'.length)
    (hItems : ∀ item ∈ items, Fits item) (hItems' : ∀ item ∈ items', Fits item)
    (hBytes : items.flatMap bytes ++ rest = items'.flatMap bytes ++ rest') :
    items = items' ∧ rest = rest' := by
  induction items generalizing items' with
  | nil =>
      have hNil := List.eq_nil_of_length_eq_zero hLength.symm
      subst hNil
      exact ⟨rfl, hBytes⟩
  | cons item items ih =>
      cases items' with
      | nil => cases hLength
      | cons item' items' =>
          simp only [List.length_cons, Nat.add_right_cancel_iff] at hLength
          simp only [List.forall_mem_cons] at hItems hItems'
          simp only [List.flatMap_cons, List.append_assoc] at hBytes
          have hHead := h item item' _ _ hItems.1 hItems'.1 hBytes
          have hTail := ih hLength hItems.2 hItems'.2 hHead.2
          rw [hHead.1, hTail.1]
          exact ⟨rfl, hTail.2⟩

/-- A list is read back: its length says how many items there are. -/
theorem listBytes (h : UniquelyReadable bytes Fits) :
    UniquelyReadable (listBytes bytes) fun items =>
      Countable items ∧ ∀ item ∈ items, Fits item := by
  intro items items' rest rest' hItems hItems' hBytes
  unfold RankOne.listBytes at hBytes
  rw [List.append_assoc, List.append_assoc] at hBytes
  have hLength :=
    uniquelyReadable_littleEndian 8 _ _ _ _ hItems.1 hItems'.1 hBytes
  exact h.flatMap hLength.1 hItems.2 hItems'.2 hLength.2

end UniquelyReadable

/-! ## The parts of a system -/

private theorem Term.uniquelyReadable :
    UniquelyReadable Term.bytes fun _ => True := by
  intro first second rest rest' _ _ h
  unfold Term.bytes at h
  rw [List.append_assoc, List.append_assoc] at h
  have hSlot := uniquelyReadable_littleEndian 4 _ _ _ _ first.slot.toNat_lt
    second.slot.toNat_lt h
  have hWire :=
    uniquelyReadable_littleEndian 4 _ _ _ _ first.wireId.toNat_lt
      second.wireId.toNat_lt hSlot.2
  refine ⟨?_, hWire.2⟩
  cases first
  cases second
  rw [Term.mk.injEq]
  exact ⟨UInt32.toNat_inj.mp hSlot.1, UInt32.toNat_inj.mp hWire.1⟩

private theorem Expression.uniquelyReadable :
    UniquelyReadable (listBytes Term.bytes) Countable :=
  Term.uniquelyReadable.listBytes.mono fun _ hTerms =>
    ⟨hTerms, fun _ _ => trivial⟩

/-- The three expressions of a constraint have a length. -/
structure Constraint.Addressable (c : Constraint) : Prop where
  left : Countable c.left
  right : Countable c.right
  output : Countable c.output

private theorem Constraint.uniquelyReadable :
    UniquelyReadable Constraint.bytes Constraint.Addressable := by
  intro first second rest rest' hFirst hSecond h
  unfold Constraint.bytes at h
  simp only [List.append_assoc] at h
  have hLeft := Expression.uniquelyReadable _ _ _ _ hFirst.left hSecond.left h
  have hRight :=
    Expression.uniquelyReadable _ _ _ _ hFirst.right hSecond.right hLeft.2
  have hOutput :=
    Expression.uniquelyReadable _ _ _ _ hFirst.output hSecond.output hRight.2
  refine ⟨?_, hOutput.2⟩
  cases first
  cases second
  rw [Constraint.mk.injEq]
  exact ⟨hLeft.1, hRight.1, hOutput.1⟩

/-- The tag of a kind says whether the number of a function follows. -/
private theorem HintKind.uniquelyReadable :
    UniquelyReadable HintKind.bytes fun _ => True := by
  intro first second rest rest' _ _ h
  cases first with
  | isZero => cases second <;> simp_all [HintKind.bytes]
  | ithBit => cases second <;> simp_all [HintKind.bytes]
  | custom id =>
      cases second with
      | isZero => simp [HintKind.bytes] at h
      | ithBit => simp [HintKind.bytes] at h
      | custom id' =>
          have hNumber : littleEndian 4 id.toNat ++ rest =
              littleEndian 4 id'.toNat ++ rest' := by
            simpa [HintKind.bytes] using h
          have hId := uniquelyReadable_littleEndian 4 _ _ _ _ id.toNat_lt
            id'.toNat_lt hNumber
          rw [UInt32.toNat_inj.mp hId.1]
          exact ⟨rfl, hId.2⟩

variable {p : Nat}

/-- A scalar is below the power of two that fills its words. -/
private theorem Fp.val_lt_words (value : Fp p) :
    value.val < 256 ^ (8 * Fp.wordCount p) := by
  have hWords : bitLength p ≤ 8 * (8 * Fp.wordCount p) := by
    unfold Fp.wordCount
    omega
  calc value.val < 2 ^ (8 * (8 * Fp.wordCount p)) := value.val_lt_two_pow hWords
    _ = 256 ^ (8 * Fp.wordCount p) := Nat.pow_mul 2 8 (8 * Fp.wordCount p)

private theorem Fp.uniquelyReadable :
    UniquelyReadable (Fp.scalarBytes : Fp p → List UInt8) fun _ => True :=
  ((uniquelyReadable_littleEndian (8 * Fp.wordCount p)).comap fun _ _ h =>
    Fp.ext h).mono
    fun value _ => value.val_lt_words

/-- The terms of an input have a length. -/
def HintInput.Addressable (input : HintInput p) : Prop := Countable input.terms

/-- The tag of an input says whether a constant or a list of terms follows. -/
private theorem HintInput.uniquelyReadable :
    UniquelyReadable
      (HintInput.bytes : HintInput p → List UInt8) HintInput.Addressable := by
  intro first second rest rest' hFirst hSecond h
  cases first with
  | constant value =>
      cases second with
      | constant value' =>
          have hBytes :
              value.scalarBytes ++ rest = value'.scalarBytes ++ rest' := by
            simpa [HintInput.bytes] using h
          have hValue := Fp.uniquelyReadable _ _ _ _ trivial trivial hBytes
          rw [hValue.1]
          exact ⟨rfl, hValue.2⟩
      | expression terms => simp [HintInput.bytes] at h
  | expression terms =>
      cases second with
      | constant value => simp [HintInput.bytes] at h
      | expression terms' =>
          have hBytes :
              listBytes Term.bytes terms ++ rest =
                listBytes Term.bytes terms' ++ rest' := by
            simpa [HintInput.bytes] using h
          have hTerms : terms = terms' ∧ rest = rest' :=
            Expression.uniquelyReadable _ _ _ _ hFirst hSecond hBytes
          rw [hTerms.1]
          exact ⟨rfl, hTerms.2⟩

/-- The lists of a hint have lengths, and its output wires are 64-bit words. -/
structure Hint.Addressable (hint : Hint p) : Prop where
  inputs : Countable hint.inputs
  input : ∀ input ∈ hint.inputs, input.Addressable
  wires : Countable hint.wires
  wire : ∀ wire ∈ hint.wires, wire < 2 ^ 64

private theorem Hint.uniquelyReadable :
    UniquelyReadable (Hint.bytes : Hint p → List UInt8) Hint.Addressable := by
  intro first second rest rest' hFirst hSecond h
  unfold Hint.bytes at h
  simp only [List.append_assoc] at h
  have hKind := HintKind.uniquelyReadable _ _ _ _ trivial trivial h
  have hInputs :=
    HintInput.uniquelyReadable.listBytes _ _ _ _ ⟨hFirst.inputs, hFirst.input⟩
      ⟨hSecond.inputs, hSecond.input⟩ hKind.2
  have hWires :=
    (uniquelyReadable_littleEndian 8).listBytes _ _ _ _ ⟨hFirst.wires,
      hFirst.wire⟩ ⟨hSecond.wires, hSecond.wire⟩ hInputs.2
  refine ⟨?_, hWires.2⟩
  cases first
  cases second
  rw [Hint.mk.injEq]
  exact ⟨hKind.1, hInputs.1, hWires.1⟩

private theorem Layout.uniquelyReadable :
    UniquelyReadable Layout.bytes fun _ => True := by
  intro first second rest rest' _ _ h
  unfold Layout.bytes at h
  simp only [List.append_assoc] at h
  have hPublic :=
    uniquelyReadable_littleEndian 8 _ _ _ _ first.numPublic.toNat_lt
      second.numPublic.toNat_lt h
  have hSecret :=
    uniquelyReadable_littleEndian 8 _ _ _ _ first.numSecret.toNat_lt
      second.numSecret.toNat_lt hPublic.2
  have hInternal :=
    uniquelyReadable_littleEndian 8 _ _ _ _ first.numInternal.toNat_lt
      second.numInternal.toNat_lt hSecret.2
  refine ⟨?_, hInternal.2⟩
  cases first
  cases second
  rw [Layout.mk.injEq]
  exact ⟨UInt64.toNat_inj.mp hPublic.1, UInt64.toNat_inj.mp hSecret.1,
    UInt64.toNat_inj.mp hInternal.1⟩

/-! ## Whole systems -/

/-- All lists of a system have lengths that are 64-bit words, and so are the
numbers of the output wires of its hints. -/
structure FlatSystem.Addressable (system : FlatSystem p) : Prop where
  constraints : Countable system.constraints.toList
  constraint : ∀ c ∈ system.constraints.toList, c.Addressable
  coefficients : Countable system.coefficients.toList
  hints : Countable system.hints.toList
  hint : ∀ hint ∈ system.hints.toList, hint.Addressable

/-- Systems with the same bytes are the same. -/
theorem FlatSystem.Addressable.bytes_inj {first second : FlatSystem p}
    (hFirst : first.Addressable) (hSecond : second.Addressable) :
    first.bytes = second.bytes ↔ first = second := by
  refine ⟨fun h => ?_, congrArg _⟩
  unfold FlatSystem.bytes at h
  rw [← List.append_nil (_ ++ _),
    ← List.append_nil (second.layout.bytes ++ _ ++ _ ++ _)] at h
  simp only [List.append_assoc] at h
  have hLayout := Layout.uniquelyReadable _ _ _ _ trivial trivial h
  have hConstraints := Constraint.uniquelyReadable.listBytes _ _ _ _
    ⟨hFirst.constraints, hFirst.constraint⟩ ⟨hSecond.constraints,
      hSecond.constraint⟩ hLayout.2
  have hCoefficients := Fp.uniquelyReadable.listBytes _ _ _ _
    ⟨hFirst.coefficients, fun _ _ => trivial⟩ ⟨hSecond.coefficients,
      fun _ _ => trivial⟩
    hConstraints.2
  have hHints :=
    Hint.uniquelyReadable.listBytes _ _ _ _ ⟨hFirst.hints, hFirst.hint⟩
      ⟨hSecond.hints, hSecond.hint⟩ hCoefficients.2
  cases first
  cases second
  rw [FlatSystem.mk.injEq]
  exact ⟨hLayout.1, Array.toList_inj.mp hConstraints.1,
    Array.toList_inj.mp hCoefficients.1, Array.toList_inj.mp hHints.1⟩

end RankOne
