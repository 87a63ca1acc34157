import Mathlib.Data.Finset.Card
import Mathlib.Data.Finset.Dedup
import RankOne.Proofs.Constraint.CoefficientTable

/-!
# What a coefficient table remembers

A table that has been asked for coefficients, one after the other, holds each of
them once, in the order in which they were first asked for. Nothing else is in
it, and nothing in it ever moves. So a slot that was given out early still leads
to its coefficient at the end, and equal slots were given out for equal
coefficients only.
-/

namespace RankOne

namespace CoefficientTable

variable {p : Nat}

/-- Asks for coefficients one after the other: the slots that are given out, and
the table at the end. -/
def insertAll :
    List (Fp p) → CoefficientTable p → List UInt32 × CoefficientTable p
  | [], table => ([], table)
  | value :: rest, table =>
      let inserted := table.insert value
      let later := insertAll rest inserted.2
      (inserted.1 :: later.1, later.2)

private theorem insertAll_append (before after : List (Fp p))
    (table : CoefficientTable p) :
    insertAll (before ++ after) table =
      ((insertAll before table).1 ++
        (insertAll after (insertAll before table).2).1,
        (insertAll after (insertAll before table).2).2) := by
  induction before generalizing table with
  | nil => rfl
  | cons value rest ih =>
    rw [List.cons_append, insertAll, ih, insertAll, List.cons_append]

private theorem length_insertAll (asked : List (Fp p))
    (table : CoefficientTable p) :
    (insertAll asked table).1.length = asked.length := by
  induction asked generalizing table with
  | nil => rfl
  | cons value rest ih => rw [insertAll, List.length_cons, ih, List.length_cons]

private theorem insertAll_eq_foldl (asked : List (Fp p))
    (table : CoefficientTable p) :
    (insertAll asked table).2 =
      asked.foldl (fun table value => (table.insert value).2) table := by
  induction asked generalizing table with
  | nil => rfl
  | cons value rest ih => rw [insertAll, List.foldl_cons, ih]

private theorem grown_insertAll (asked : List (Fp p))
    (table : CoefficientTable p) :
    Grown table (insertAll asked table).2 asked :=
  insertAll_eq_foldl asked table ▸ insertAll_grown asked table

private theorem initial_eq_insertAll [Modulus p] :
    (initial : CoefficientTable p) = (insertAll (seeds p) empty).2 := rfl

/-! ## Values and slots -/

section Small

variable {table : CoefficientTable p} (hTable : table.Lawful)
  (hSize : table.values.size ≤ 2 ^ 32)
include hTable hSize

/-- The slots of a table are the places of its values. -/
private theorem Lawful.slot_iff {value : Fp p} {slot : UInt32} :
    table.slots[value.val]? = some slot ↔
      table.values[slot.toNat]? = some value := by
  refine ⟨hTable.slot hSize value slot, fun hValue => ?_⟩
  obtain ⟨hBound, hGet⟩ := Array.getElem?_eq_some_iff.mp hValue
  have hMem : value ∈ table.values.toList :=
    hGet ▸ Array.getElem_mem_toList hBound
  cases hSlot : table.slots[value.val]? with
  | none => exact absurd hSlot (hTable.stored value hMem)
  | some slot' =>
      obtain ⟨hBound', hGet'⟩ :=
        Array.getElem?_eq_some_iff.mp (hTable.slot hSize value slot' hSlot)
      have hPlace : slot'.toNat = slot.toNat := by
        have hSame : table.values.toList[slot'.toNat] =
            table.values.toList[slot.toNat] := by
          rw [Array.getElem_toList, Array.getElem_toList, hGet, hGet']
        exact (List.Nodup.getElem_inj_iff hTable.nodup).mp hSame
      rw [UInt32.toNat_inj.mp hPlace]

/-- Two slots that lead to coefficients are the same when the coefficients
are. -/
private theorem Lawful.slot_eq_iff {value value' : Fp p} {slot slot' : UInt32}
    (h : table.values[slot.toNat]? = some value)
    (h' : table.values[slot'.toNat]? = some value') :
    slot = slot' ↔ value = value' := by
  constructor
  · rintro rfl
    rw [h] at h'
    injection h'
  · rintro rfl
    rw [← hTable.slot_iff hSize] at h h'
    rw [h] at h'
    injection h'

private theorem Lawful.mem_iff {value : Fp p} :
    value ∈ table.values.toList ↔ table.slots[value.val]? ≠ none := by
  refine ⟨hTable.stored value, fun hSlot => ?_⟩
  obtain ⟨slot, hSlot⟩ := Option.ne_none_iff_exists'.mp hSlot
  exact Array.mem_toList_iff.mpr
    (Array.mem_of_getElem? (hTable.slot hSize value slot hSlot))

/-- A coefficient is appended unless it is there. -/
private theorem toList_values_insert (value : Fp p) :
    (table.insert value).2.values.toList =
      table.values.toList ++ [value].removeAll table.values.toList := by
  by_cases hKnown : value ∈ table.values.toList
  · obtain ⟨slot, hSlot⟩ :=
      Option.ne_none_iff_exists'.mp ((hTable.mem_iff hSize).mp hKnown)
    rw [insert_known hSlot]
    simp [List.removeAll, Array.mem_def.mpr hKnown]
  · have hNone := not_not.mp (mt (hTable.mem_iff hSize).mpr hKnown)
    rw [insert_new hNone]
    simp [push, List.removeAll, mt Array.mem_def.mp hKnown]

/-- A coefficient that is not there gets the next slot. -/
private theorem insert_slot_new {value : Fp p}
    (hNew : value ∉ table.values.toList) (hRoom : table.values.size < 2 ^ 32) :
    (table.insert value).1.toNat = table.size := by
  rw [insert_new (not_not.mp (mt (hTable.mem_iff hSize).mpr hNew))]
  show table.values.size.toUInt32.toNat = table.values.size
  rw [Nat.toUInt32_eq, UInt32.toNat_ofNat']
  exact Nat.mod_eq_of_lt hRoom

end Small

/-! ## All that was asked for -/

/-- A table that has been asked for coefficients lists them without
repetitions. -/
theorem toList_values_insertAll {asked : List (Fp p)}
    (hSize : (insertAll asked empty).2.values.size ≤ 2 ^ 32) :
    (insertAll asked empty).2.values.toList = asked.eraseDups := by
  induction asked using List.reverseRecOn with
  | nil => rfl
  | append_singleton asked value ih =>
      rw [insertAll_append] at hSize ⊢
      have hEarlier := (grown_insertAll [value]
        (insertAll asked empty).2).size_mono.trans hSize
      have hLawful := (grown_insertAll asked empty).lawful lawful_empty
      show ((insertAll asked empty).2.insert value).2.values.toList = _
      rw [toList_values_insert hLawful hEarlier, ih hEarlier,
        List.eraseDups_append]
      by_cases hKnown : value ∈ asked
      · simp [List.removeAll, hKnown]
      · simp [List.removeAll, hKnown, List.eraseDups_cons]

/-- Every slot that is given out leads to its coefficient at the end. -/
theorem insertAll_leads {asked : List (Fp p)} {table : CoefficientTable p}
    (hTable : table.Lawful)
    (hSize : (insertAll asked table).2.values.size ≤ 2 ^ 32) :
    List.Forall₂ (fun value slot =>
      (insertAll asked table).2.values[slot.toNat]? = some value)
      asked (insertAll asked table).1 := by
  induction asked generalizing table with
  | nil => exact .nil
  | cons value rest ih =>
      rw [insertAll] at hSize ⊢
      have hRest := grown_insertAll rest (table.insert value).2
      have hHere := insert_slot hTable value (hRest.size_mono.trans hSize)
      exact .cons (hRest.keeps _ _ hHere)
        (ih ((insert_grown table value).lawful hTable) hSize)

/-! ## Tables that start with the common coefficients -/

/-- Zero, one, two and minus one are four coefficients, unless the modulus is
small. -/
private theorem nodup_seeds [Modulus p] (hp : 3 < p) : (seeds p).Nodup := by
  have hOne : (1 : Fp p).val = 1 := Nat.mod_eq_of_lt (by omega)
  have hTwo : (1 + 1 : Fp p).val = 2 := by
    rw [Fp.val_add, hOne]
    exact Nat.mod_eq_of_lt (by omega)
  have hMinus : (-1 : Fp p).val = p - 1 := by
    rw [Fp.val_neg, hOne]
    exact Nat.mod_eq_of_lt (by omega)
  have hValues : ((seeds p).map Fp.val).Nodup := by
    simp only [seeds, List.map_cons, List.map_nil, Fp.val_zero, hOne, hTwo,
      hMinus, List.nodup_cons, List.mem_cons, List.not_mem_nil, or_false,
      not_false_iff, List.nodup_nil, and_true]
    omega
  exact hValues.of_map _

/-- A list without repetitions stays as it is. -/
private theorem eraseDups_of_nodup {xs : List (Fp p)} (h : xs.Nodup) :
    xs.eraseDups = xs := by
  induction xs with
  | nil => rfl
  | cons x xs ih =>
      obtain ⟨hFirst, hRest⟩ := List.nodup_cons.mp h
      have hKeep : xs.filter (fun y => !y == x) = xs := by
        rw [List.filter_eq_self]
        intro y hy
        simp [ne_of_mem_of_not_mem hy hFirst]
      rw [List.eraseDups_cons, hKeep, ih hRest]

/-- The number of coefficients asked for that are not among the given ones. -/
private theorem length_eraseDups_removeAll {asked known : List (Fp p)}
    (h : (asked.removeAll known).eraseDups.Nodup) :
    (asked.removeAll known).eraseDups.length =
      (asked.toFinset \ known.toFinset).card := by
  have hMembers : (asked.removeAll known).eraseDups.toFinset =
      asked.toFinset \ known.toFinset := by
    ext value
    simp [List.removeAll]
  rw [← hMembers, List.toFinset_card_of_nodup h]

/-- What a table and the slots that it gave out say about the coefficients that
were asked for. -/
structure Records [Modulus p] (table : CoefficientTable p) (asked : List (Fp p))
    (slots : List UInt32) : Prop where
  common : table.values[0]? = some (0 : Fp p) ∧
    table.values[1]? = some (1 : Fp p) ∧
    table.values[2]? = some (Fp.ofNat p 2) ∧ table.values[3]? = some (-1 : Fp p)
  order : table.values.toList = seeds p ++ (asked.removeAll (seeds p)).eraseDups
  nodup : table.values.toList.Nodup
  size : table.size = 4 + (asked.toFinset \ (seeds p).toFinset).card
  length : slots.length = asked.length
  leads : ∀ (number : Nat) (value : Fp p) (slot : UInt32),
    asked[number]? = some value →
    slots[number]? = some slot → table.values[slot.toNat]? = some value
  same : ∀ number < asked.length, ∀ number' < asked.length,
    (slots[number]? = slots[number']? ↔ asked[number]? = asked[number']?)
  inverse : ∀ (value : Fp p) (slot : UInt32),
    table.slots[value.val]? = some slot ↔ table.values[slot.toNat]? = some value

/-- How one coefficient of a history was handled: nothing that was stored before
has moved, and the slot is the next one if the coefficient was not stored. -/
structure Handled (earlier table : CoefficientTable p) (value : Fp p)
    (slot : UInt32) : Prop where
  kept : earlier.values.toList <+: table.values.toList
  given : (earlier.insert value).1 = slot
  next : value ∉ earlier.values.toList → slot.toNat = earlier.size

/-- What was stored before is where it was. -/
private theorem Grown.values_kept {table later : CoefficientTable p}
    {asked : List (Fp p)} (h : Grown table later asked) :
    table.values.toList <+: later.values.toList := by
  rw [List.prefix_iff_getElem?]
  intro slot hSlot
  rw [Array.getElem?_toList]
  exact h.keeps slot
    _ (by rw [← Array.getElem?_toList, List.getElem?_eq_getElem hSlot])

section History

variable [Modulus p] {asked : List (Fp p)} (hCalls : asked.length < 2 ^ 32 - 4)
include hCalls

private theorem size_values_insertAll_initial :
    (insertAll asked (initial : CoefficientTable p)).2.values.size <
      2 ^ 32 := by
  have hAll :=
    initial_grown.trans (grown_insertAll asked (initial : CoefficientTable p))
  have hSize := hAll.size_le.trans (List.dedup_sublist _).length_le
  rw [List.length_append] at hSize
  have hSeeds : (seeds p).length = 4 := rfl
  omega

/-- One coefficient of a history. -/
private theorem insertAll_handled {before after : List (Fp p)} {value : Fp p}
    (hSplit : asked = before ++ value :: after) :
    ∃ slot, (insertAll asked initial).1[before.length]? = some slot ∧
      Handled (insertAll before initial).2
        (insertAll asked initial).2 value slot := by
  have hRoom := size_values_insertAll_initial hCalls
  subst hSplit
  rw [insertAll_append] at hRoom ⊢
  have hLater := grown_insertAll (value :: after) (insertAll before initial).2
  have hEarlier := Nat.lt_of_le_of_lt hLater.size_mono hRoom
  have hLawful :=
    (initial_grown.trans (grown_insertAll before initial)).lawful lawful_empty
  refine ⟨((insertAll before initial).2.insert value).1, ?_, hLater.values_kept,
    rfl, fun hNew => ?_⟩
  · rw [List.getElem?_append_right (length_insertAll before initial).le,
      length_insertAll, Nat.sub_self]
    rfl
  · exact insert_slot_new hLawful hEarlier.le hNew hEarlier

variable (hp : 3 < p)
include hp

/-- The common coefficients come first, and the others in the order in which
they were first asked for. -/
private theorem toList_values_insertAll_initial :
    (insertAll asked initial).2.values.toList =
    seeds p ++ (asked.removeAll (seeds p)).eraseDups := by
  have hAll : (insertAll (seeds p ++ asked) empty).2 =
      (insertAll asked initial).2 := by
    rw [insertAll_append, ← initial_eq_insertAll]
  have hSize := (size_values_insertAll_initial hCalls).le
  rw [← hAll] at hSize ⊢
  rw [toList_values_insertAll hSize, List.eraseDups_append,
    eraseDups_of_nodup (nodup_seeds hp)]

/-- A table that starts with the common coefficients, and is asked fewer than
`2 ^ 32 - 4` times, records what it is asked for. -/
theorem insertAll_records :
    (insertAll asked initial).2.Records asked (insertAll asked initial).1 ∧
    ∀ before value after, asked = before ++ value :: after →
      ∃ slot, (insertAll asked initial).1[before.length]? = some slot ∧
        Handled (insertAll before initial).2
          (insertAll asked initial).2 value slot := by
  refine ⟨?_, fun before value after hSplit => insertAll_handled hCalls hSplit⟩
  have hOrder := toList_values_insertAll_initial hCalls hp
  have hSize := (size_values_insertAll_initial hCalls).le
  have hInitial : (initial : CoefficientTable p).Lawful :=
    initial_grown.lawful lawful_empty
  have hLawful := (grown_insertAll asked initial).lawful hInitial
  have hLeads := List.forall₂_iff_get.mp (insertAll_leads hInitial hSize)
  have hLength := length_insertAll asked initial
  generalize insertAll asked initial = recorded
    at hOrder hSize hLawful hLeads hLength ⊢
  obtain ⟨slots, table⟩ := recorded
  dsimp only at hOrder hSize hLawful hLeads hLength ⊢
  have hFound : ∀ (number : Nat) (value : Fp p) (slot : UInt32),
      asked[number]? = some value →
      slots[number]? = some slot → table.values[slot.toNat]? = some value := by
    intro number value slot hValue hSlot
    obtain ⟨hBound, rfl⟩ := List.getElem?_eq_some_iff.mp hValue
    obtain ⟨hBound', rfl⟩ := List.getElem?_eq_some_iff.mp hSlot
    exact hLeads.2 number hBound hBound'
  refine
    { common := ?_
      order := hOrder
      nodup := hLawful.nodup
      size := ?_
      length := hLength
      leads := hFound
      same := ?_
      inverse := fun value slot => hLawful.slot_iff hSize }
  · have hTwo : (1 + 1 : Fp p) = Fp.ofNat p 2 := by
      apply Fp.ext
      rw [Fp.val_add, Fp.val_one, ← Nat.add_mod, Fp.val_ofNat]
    simp only [← Array.getElem?_toList, hOrder, seeds, ← hTwo]
    exact ⟨rfl, rfl, rfl, rfl⟩
  · have hNodup := hLawful.nodup
    rw [hOrder] at hNodup
    show table.values.size = _
    rw [← Array.length_toList, hOrder, List.length_append,
      length_eraseDups_removeAll (List.nodup_append.mp hNodup).2.1]
    rfl
  · intro number hNumber number' hNumber'
    have hValue := List.getElem?_eq_getElem hNumber
    have hValue' := List.getElem?_eq_getElem hNumber'
    have hSlot :=
      List.getElem?_eq_getElem (hLength.symm ▸ hNumber : number < slots.length)
    have hSlot' := List.getElem?_eq_getElem (hLength.symm ▸ hNumber' : number' <
      slots.length)
    rw [hSlot, hSlot', hValue, hValue', Option.some_inj, Option.some_inj]
    exact hLawful.slot_eq_iff hSize (hFound number _ _ hValue hSlot)
      (hFound number' _ _ hValue' hSlot')

end History

/-- Seven, one, seven again, five, and minus one, modulo 17. -/
def mixedCoefficients : List (Fp 17) :=
  [Fp.ofNat 17 7, 1, Fp.ofNat 17 7, Fp.ofNat 17 5, -1]

/-- Seven and five are new when they are first asked for, and get the next
slots. -/
theorem insertAll_records_mixed :
    mixedCoefficients.length < 2 ^ 32 - 4 ∧ 3 < 17 ∧
    (insertAll mixedCoefficients initial).1 = [4, 1, 4, 5, 3] ∧
    (insertAll mixedCoefficients initial).2.Records mixedCoefficients [4,
      1, 4, 5, 3] ∧
    Handled (insertAll [Fp.ofNat 17 7, 1, Fp.ofNat 17 7] initial).2
      (insertAll mixedCoefficients initial).2 (Fp.ofNat 17 5) 5 := by
  have hSlots : (insertAll mixedCoefficients initial).1 = [4, 1, 4, 5, 3] := by
    decide +kernel
  have hCalls : mixedCoefficients.length < 2 ^ 32 - 4 := by decide
  obtain ⟨hRecords, hHistory⟩ := insertAll_records hCalls (by decide)
  rw [hSlots] at hRecords hHistory
  obtain ⟨slot, hSlot, hHandled⟩ :=
    hHistory [Fp.ofNat 17 7, 1, Fp.ofNat 17 7] (Fp.ofNat 17 5) [-1] rfl
  injection hSlot with hSlot
  exact ⟨hCalls, by decide, hSlots, hRecords, hSlot ▸ hHandled⟩

end CoefficientTable

end RankOne
