import Mathlib.Computability.Language
import RankOne.Bytes.Codec
import RankOne.Proofs.Constraint.Fingerprint
import RankOne.Proofs.Outcome

/-!
# Reading what was written, and only that

A codec is looked at from both sides. A value *round-trips* if it is admitted
and read back from its own bytes, whatever stands behind them. The *spellings*
of a value are the byte strings that are read as this value. A spelling ends
where its own bytes say, so the spellings of a list or a record are the products
of the spellings of its parts, in the sense of formal languages.

Words, digests and residues have one spelling each, the bytes they are written
as, and so has a list of values of this kind.
-/

namespace RankOne

/-! ## Words -/

theorem ofLittleEndian_lt (bytes : List UInt8) :
    ofLittleEndian bytes < 256 ^ bytes.length := by
  rw [← littleEndian_ofLittleEndian bytes, ofLittleEndian_littleEndian,
    length_littleEndian]
  exact Nat.mod_lt _ (Nat.pow_pos (by decide))

/-- A word is written as some bytes exactly if these bytes are read as it. -/
theorem eq_littleEndian_iff {width n : Nat} {bytes : List UInt8}
    (hn : n < 256 ^ width) :
    bytes = littleEndian width n ↔ bytes.length = width ∧
      ofLittleEndian bytes = n := by
  constructor
  · rintro rfl
    rw [ofLittleEndian_littleEndian, Nat.mod_eq_of_lt hn]
    exact ⟨length_littleEndian width n, rfl⟩
  · rintro ⟨rfl, rfl⟩
    exact (littleEndian_ofLittleEndian bytes).symm

/-- The same for words written most significant byte first. -/
theorem eq_bigEndian_iff {width n : Nat} {bytes : List UInt8}
    (hn : n < 256 ^ width) :
    bytes = bigEndian width n ↔ bytes.length = width ∧
      ofBigEndian bytes = n := by
  rw [bigEndian, ← List.reverse_eq_iff, eq_littleEndian_iff hn,
    List.length_reverse, ofBigEndian]

/-! ## Good endings of a reader -/

namespace Decoder

variable {α β : Type} {input rest bytes : List UInt8}

theorem run_bind_eq_ok {first : Decoder α} {next : α → Decoder β} {b : β} :
    (first >>= next).run input = .ok (b, rest) ↔
      ∃ a between, first.run input = .ok (a, between) ∧
        (next a).run between = .ok (b, rest) := by
  rw [StateT.run_bind, bind_eq_ok]
  simp only [Prod.exists]

theorem run_pure_eq_ok {a b : α} :
    (pure a : Decoder α).run input = .ok (b, rest) ↔ a = b ∧ input = rest := by
  rw [StateT.run_pure, pure_eq_ok, Prod.mk.injEq]

theorem run_fail_ne_ok {e : DecodeError} {a : α} :
    (fail e).run input ≠ .ok (a, rest) :=
  Outcome.report_ne_ok

private theorem run_abandon_ne_ok {cause : Fault} {a : α} :
    (abandon cause).run input ≠ .ok (a, rest) :=
  Outcome.abandon_ne_ok

theorem run_require_eq_ok {result : Option α} {a : α} :
    (require result).run input = .ok (a, rest) ↔ result = some a ∧
      input = rest := by
  cases result with
  | none => simp [require, run_fail_ne_ok]
  | some b => rw [require, run_pure_eq_ok, Option.some.injEq]

theorem run_blockOr_eq_ok {short : DecodeError} {count : Nat} :
    (blockOr short count).run input = .ok (bytes, rest) ↔
      input = bytes ++ rest ∧ bytes.length = count := by
  by_cases hCount : count ≤ input.length
  · have hRun : (blockOr short count).run input =
        .ok (input.take count, input.drop count) :=
      if_pos hCount
    rw [hRun, Except.ok.injEq, Prod.mk.injEq]
    constructor
    · rintro ⟨rfl, rfl⟩
      exact ⟨(List.take_append_drop count input).symm,
        List.length_take_of_le hCount⟩
    · rintro ⟨rfl, rfl⟩
      exact ⟨List.take_left, List.drop_left⟩
  · have hRun : (blockOr short count).run input = Outcome.report short :=
      if_neg hCount
    rw [hRun]
    constructor
    · intro h
      exact absurd h Outcome.report_ne_ok
    · rintro ⟨rfl, rfl⟩
      exact absurd (by simp) hCount

theorem run_block_eq_ok {count : Nat} :
    (block count).run input = .ok (bytes, rest) ↔ input = bytes ++ rest ∧
      bytes.length = count :=
  run_blockOr_eq_ok

end Decoder

namespace Codec

open Decoder

variable {α : Type} [Codec α]

theorem decode_eq_ok {input rest : List UInt8} {a : α} :
    (decode α).run input = .ok (a, rest) ↔
      (read : Decoder α).run input = .ok (a, rest) ∧ admits a = true := by
  rw [decode, run_bind_eq_ok]
  constructor
  · rintro ⟨b, between, hRead, hExamined⟩
    by_cases hAdmits : admits b = true
    · rw [if_pos hAdmits, run_pure_eq_ok] at hExamined
      obtain ⟨rfl, rfl⟩ := hExamined
      exact ⟨hRead, hAdmits⟩
    · rw [if_neg hAdmits] at hExamined
      exact absurd hExamined run_fail_ne_ok
  · rintro ⟨hRead, hAdmits⟩
    refine ⟨a, rest, hRead, ?_⟩
    rw [if_pos hAdmits, run_pure_eq_ok]
    exact ⟨rfl, rfl⟩

/-! ## Values that are read back -/

/-- The value is admitted, and it is read back from its own bytes, whatever
stands behind them. -/
structure RoundTrips (a : α) : Prop where
  admitted : admits a = true
  read_encode : ∀ rest,
    (read : Decoder α).run (encode a ++ rest) = .ok (a, rest)

/-- The items fit into memory, and their number into a word. -/
structure Holdable (items : List α) : Prop where
  inMemory : items.length * footprint α < memoryLimit
  countable : Countable items

namespace RoundTrips

theorem decode_encode {a : α} (h : RoundTrips a) (rest : List UInt8) :
    (decode α).run (encode a ++ rest) = .ok (a, rest) :=
  decode_eq_ok.mpr ⟨h.read_encode rest, h.admitted⟩

/-- Induction over the items: each is read back in front of the bytes of those
after it. -/
private theorem readMany_encode {items : List α} (h : ∀ a ∈ items, RoundTrips a)
    (rest : List UInt8) :
    (readMany α items.length).run (items.flatMap encode ++ rest) =
      .ok (items, rest) := by
  induction items with
  | nil => exact run_pure_eq_ok.mpr ⟨rfl, rfl⟩
  | cons a items ih =>
      rw [List.forall_mem_cons] at h
      rw [List.flatMap_cons, List.append_assoc, List.length_cons, readMany,
        run_bind_eq_ok]
      refine ⟨a, _, h.1.read_encode _, ?_⟩
      rw [run_bind_eq_ok]
      exact ⟨items, rest, ih h.2, run_pure_eq_ok.mpr ⟨rfl, rfl⟩⟩

/-- A list that can be held in memory is read back if its items are. -/
theorem list {items : List α} (h : ∀ a ∈ items, RoundTrips a)
    (hHold : Holdable items) : RoundTrips items where
  admitted := List.all_eq_true.mpr fun a ha => (h a ha).admitted
  read_encode rest := by
    have hCount :
        ofLittleEndian (littleEndian 8 items.length) = items.length := by
      rw [ofLittleEndian_littleEndian]
      exact Nat.mod_eq_of_lt hHold.countable
    show (Decoder.block 8 >>= _).run (littleEndian 8 items.length ++
      _ ++ rest) = _
    rw [run_bind_eq_ok]
    refine ⟨littleEndian 8 items.length, items.flatMap encode ++ rest, ?_, ?_⟩
    · rw [run_block_eq_ok, List.append_assoc]
      exact ⟨rfl, length_littleEndian 8 _⟩
    · rw [hCount, if_neg (Nat.not_le.mpr hHold.inMemory)]
      exact readMany_encode h rest

end RoundTrips

/-! ## Values that are read from one byte string -/

/-- Reading a value and leaving a rest is the same as finding its bytes in front
of the rest. -/
class ExactCodec (α : Type) [Codec α] : Prop where
  read_eq_ok {input rest : List UInt8} {a : α} :
    (read : Decoder α).run input = .ok (a, rest) ↔ input = encode a ++ rest
  admitted (a : α) : admits a = true

theorem RoundTrips.of_exact [ExactCodec α] (a : α) : RoundTrips a where
  admitted := ExactCodec.admitted a
  read_encode _ := ExactCodec.read_eq_ok.mpr rfl

instance : ExactCodec UInt64 where
  read_eq_ok {input rest word} := by
    have hWord : word.toNat < 256 ^ 8 := word.toNat_lt
    show (Decoder.block 8 >>= fun bytes =>
      pure (ofLittleEndian bytes).toUInt64).run input = _ ↔ _
    rw [run_bind_eq_ok]
    simp only [run_block_eq_ok, run_pure_eq_ok]
    constructor
    · rintro ⟨bytes, between, ⟨rfl, hLength⟩, rfl, rfl⟩
      have hBytes : ofLittleEndian bytes < 2 ^ 64 := by
        have h := ofLittleEndian_lt bytes
        rwa [hLength] at h
      congr 1
      exact (eq_littleEndian_iff hWord).mpr ⟨hLength,
        (UInt64.toNat_ofNat_of_lt' hBytes).symm⟩
    · rintro rfl
      have hBytes := (eq_littleEndian_iff hWord).mp rfl
      refine ⟨littleEndian 8 word.toNat, rest, ⟨rfl, hBytes.1⟩, ?_, rfl⟩
      rw [hBytes.2]
      exact UInt64.ofNat_toNat
  admitted _ := rfl

/-- A digest is made up of the bytes at its places. -/
private theorem toDigest_eq_iff {bytes : List UInt8} {digest : Digest}
    (hLength : bytes.length = 32) :
    (Vector.ofFn fun place : Fin 32 => bytes.getD place.val 0) = digest ↔
      bytes = digest.toList := by
  rw [← Vector.toList_inj]
  have hBytes : (Vector.ofFn fun place : Fin 32 =>
      bytes.getD place.val 0).toList = bytes := by
    apply List.ext_getElem
    · rw [Vector.length_toList, hLength]
    · intro place hPlace hPlace'
      rw [Vector.getElem_toList, Vector.getElem_ofFn,
        List.getD_eq_getElem?_getD, List.getElem?_eq_getElem hPlace',
        Option.getD_some]
  rw [hBytes]

instance : ExactCodec Digest where
  read_eq_ok {input rest digest} := by
    show (Decoder.block 32 >>= fun bytes =>
      pure (Vector.ofFn fun place => bytes.getD place.val 0)).run input = _ ↔ _
    rw [run_bind_eq_ok]
    constructor
    · rintro ⟨bytes, between, hBlock, hDigest⟩
      obtain ⟨rfl, hLength⟩ := run_block_eq_ok.mp hBlock
      obtain ⟨hValue, rfl⟩ := run_pure_eq_ok.mp hDigest
      exact congrArg (· ++ between) ((toDigest_eq_iff hLength).mp hValue)
    · intro hInput
      have hLength : digest.toList.length = 32 := digest.length_toList
      refine ⟨digest.toList, rest, run_block_eq_ok.mpr ⟨hInput, hLength⟩, ?_⟩
      exact run_pure_eq_ok.mpr ⟨(toDigest_eq_iff hLength).mpr rfl, rfl⟩
  admitted _ := rfl

variable {p : Nat}

theorem ofCanonical?_eq_some {n : Nat} {a : Fp p} :
    Fp.ofCanonical? n = some a ↔ n = a.val := by
  unfold Fp.ofCanonical?
  split
  · next h => 
      rw [Option.some.injEq]
      constructor
      · rintro rfl
        rfl
      · rintro rfl
        rfl
  · next h =>
      constructor
      · intro hNone
        cases hNone
      · rintro rfl
        exact absurd a.isLt h

/-- A residue is below the power of two that fills its bytes. -/
private theorem val_lt_bytes (a : Fp p) : a.val < 256 ^ Fp.byteCount p := by
  have hBytes : Fp.bitLength p ≤ 8 * Fp.byteCount p := by
    unfold Fp.byteCount
    omega
  calc a.val < 2 ^ (8 * Fp.byteCount p) := a.val_lt_two_pow hBytes
    _ = 256 ^ Fp.byteCount p := Nat.pow_mul 2 8 (Fp.byteCount p)

instance : ExactCodec (Fp p) where
  read_eq_ok {input rest a} := by
    show (Decoder.block (Fp.byteCount p) >>= fun bytes =>
      Decoder.require (Fp.ofCanonical? (ofLittleEndian bytes))).run input = _ ↔
        _
    rw [run_bind_eq_ok]
    simp only [run_block_eq_ok, run_require_eq_ok, ofCanonical?_eq_some]
    constructor
    · rintro ⟨bytes, between, ⟨rfl, hLength⟩, hVal, rfl⟩
      congr 1
      exact (eq_littleEndian_iff (val_lt_bytes a)).mpr ⟨hLength, hVal⟩
    · rintro rfl
      have hBytes := (eq_littleEndian_iff (val_lt_bytes a)).mp rfl
      exact ⟨_, rest, ⟨rfl, hBytes.1⟩, hBytes.2, rfl⟩
  admitted _ := rfl

/-! ## Spellings -/

/-- The input begins with a member of the language, and the rest is what stands
behind it. -/
def Begins (language : Language UInt8) (input rest : List UInt8) : Prop :=
  ∃ front ∈ language, input = front ++ rest

theorem Begins.mul {first second : Language UInt8}
    {input between rest : List UInt8} (hFirst : Begins first input between)
    (hSecond : Begins second between rest) :
    Begins (first * second) input rest := by
  obtain ⟨front, hFront, rfl⟩ := hFirst
  obtain ⟨back, hBack, rfl⟩ := hSecond
  exact ⟨front ++ back, Language.append_mem_mul hFront hBack,
    (List.append_assoc ..).symm⟩

/-- A codec with the byte strings that are read as a value. -/
class SpelledCodec (α : Type) [Codec α] where
  spellings : α → Language UInt8
  spelled {input rest : List UInt8} {a : α}
    (hRead : (read : Decoder α).run input = .ok (a, rest))
    (hAdmits : admits a = true) : Begins (spellings a) input rest

export SpelledCodec (spellings)

/-- The only byte string that stands for the value is the one that it is written
as. -/
def OneSpelling [SpelledCodec α] (a : α) : Prop := spellings a = {encode a}

instance [ExactCodec α] : SpelledCodec α where
  spellings a := {encode a}
  spelled hRead _ := ⟨_, rfl, ExactCodec.read_eq_ok.mp hRead⟩

theorem OneSpelling.of_exact [ExactCodec α] (a : α) : OneSpelling a := rfl

variable [SpelledCodec α]

/-- Reading a value and something more begins with a spelling of the value. -/
theorem decode_bind_spelled {β : Type} {next : α → Decoder β}
    {input rest : List UInt8} {b : β}
    (h : (decode α >>= next).run input = .ok (b, rest)) :
    ∃ a between, Begins (spellings a) input between ∧
      (next a).run between = .ok (b, rest) := by
  obtain ⟨a, between, hFirst, hNext⟩ := run_bind_eq_ok.mp h
  obtain ⟨hRead, hAdmits⟩ := decode_eq_ok.mp hFirst
  exact ⟨a, between, SpelledCodec.spelled hRead hAdmits, hNext⟩

/-- Induction over the number of items, whose spellings are found one after the
other. -/
private theorem readMany_spelled {count : Nat} {items : List α}
    {input rest : List UInt8}
    (h : (readMany α count).run input = .ok (items, rest))
    (hAdmits : ∀ a ∈ items, admits a = true) :
    items.length = count ∧ Begins (items.map spellings).prod input rest := by
  induction count generalizing items input with
  | zero =>
      obtain ⟨rfl, rfl⟩ := run_pure_eq_ok.mp h
      exact ⟨rfl, [], Language.nil_mem_one, rfl⟩
  | succ count ih =>
      obtain ⟨a, between, hFirst, hOthers⟩ := run_bind_eq_ok.mp h
      obtain ⟨others, between', hMany, hItems⟩ := run_bind_eq_ok.mp hOthers
      obtain ⟨rfl, rfl⟩ := run_pure_eq_ok.mp hItems
      rw [List.forall_mem_cons] at hAdmits
      obtain ⟨hCount, hBegins⟩ := ih hMany hAdmits.2
      rw [List.map_cons, List.prod_cons, List.length_cons, hCount]
      exact ⟨rfl, (SpelledCodec.spelled hFirst hAdmits.1).mul hBegins⟩

instance : SpelledCodec (List α) where
  spellings items := {littleEndian 8 items.length} * (items.map spellings).prod
  spelled {input rest items} hRead hAdmits := by
    obtain ⟨bytes, between, hBlock, hItems⟩ := run_bind_eq_ok.mp hRead
    obtain ⟨rfl, hLength⟩ := run_block_eq_ok.mp hBlock
    by_cases hMemory : memoryLimit ≤ ofLittleEndian bytes * footprint α
    · rw [if_pos hMemory] at hItems
      exact absurd hItems run_abandon_ne_ok
    · rw [if_neg hMemory] at hItems
      obtain ⟨hCount, hBegins⟩ :=
        readMany_spelled hItems (List.all_eq_true.mp hAdmits)
      have hBytes : littleEndian 8 items.length = bytes := by
        rw [hCount, ← hLength, littleEndian_ofLittleEndian]
      exact Begins.mul ⟨bytes, hBytes.symm, rfl⟩ hBegins

theorem singleton_mul_singleton (first second : List UInt8) :
    ({first} : Language UInt8) * {second} = {first ++ second} :=
      Set.image2_singleton

theorem OneSpelling.list {items : List α} (h : ∀ a ∈ items, OneSpelling a) :
    OneSpelling items := by
  have hItems : (items.map spellings).prod = {items.flatMap encode} := by
    induction items with
    | nil => rfl
    | cons a items ih =>
        rw [List.forall_mem_cons] at h
        have hHead : spellings a = {encode a} := h.1
        rw [List.map_cons, List.prod_cons, hHead, ih h.2,
          singleton_mul_singleton, List.flatMap_cons]
  show {littleEndian 8 items.length} * (items.map spellings).prod = _
  rw [hItems, singleton_mul_singleton]
  rfl

end Codec

end RankOne
