import Mathlib.Algebra.Group.Nat.Defs
import Mathlib.Data.List.Dedup
import Mathlib.Data.List.Perm.Subperm
import RankOne.Constraint.CoefficientTable

/-!
# How the coefficient table grows

A coefficient gets a slot once and keeps it. The coefficients of a table are
distinct, so that there are at most as many as have been asked for, and the slot
that is given out for a coefficient leads to it, as long as 32 bits suffice to
number them.
-/

namespace RankOne

namespace CoefficientTable

variable {p : Nat}

/-- The coefficients are distinct, each has its slot, and, as long as 32 bits
suffice to number them, a slot leads to its coefficient. -/
structure Lawful (table : CoefficientTable p) : Prop where
  nodup : table.values.toList.Nodup
  stored : ∀ value ∈ table.values.toList, table.slots[value.val]? ≠ none
  slot : table.values.size ≤ 2 ^ 32 → ∀ (value : Fp p) (slot : UInt32),
    table.slots[value.val]? = some slot → table.values[slot.toNat]? = some value

theorem lawful_empty : (empty : CoefficientTable p).Lawful where
  nodup := List.nodup_nil
  stored := by simp [empty]
  slot := by simp [empty]

/-- What a slot leads to stays, and what is new is among the coefficients that
were asked for. -/
structure Grown (table later : CoefficientTable p) (asked : List (Fp p)) :
    Prop where
  lawful : table.Lawful → later.Lawful
  keeps : ∀ (slot : Nat) (value : Fp p), table.values[slot]? = some value →
    later.values[slot]? = some value
  added : ∀ value ∈ later.values.toList, value ∈ table.values.toList ∨
    value ∈ asked

namespace Grown

theorem refl (table : CoefficientTable p) : Grown table table [] where
  lawful := id
  keeps := fun _ _ h => h
  added := fun _ h => Or.inl h

theorem trans {table middle later : CoefficientTable p}
    {asked asked' : List (Fp p)} (h : Grown table middle asked)
    (h' : Grown middle later asked') : Grown table later (asked ++ asked') where
  lawful := fun hTable => h'.lawful (h.lawful hTable)
  keeps :=
    fun slot value hSlot => h'.keeps slot value (h.keeps slot value hSlot)
  added := by
    intro value hValue
    rw [List.mem_append]
    rcases h'.added value hValue with hMiddle | hAsked
    · have hTable := h.added value hMiddle
      tauto
    · exact Or.inr (Or.inr hAsked)

theorem size_mono {table later : CoefficientTable p} {asked : List (Fp p)}
    (h : Grown table later asked) : table.values.size ≤ later.values.size := by
  by_cases hEmpty : table.values.size = 0
  · omega
  · have hLast : table.values.size - 1 < table.values.size := by omega
    have hKept := h.keeps _ _ (Array.getElem?_eq_getElem hLast)
    have hBound := (Array.getElem?_eq_some_iff.mp hKept).1
    omega

/-- A table that grows from the empty one holds no more than the distinct
coefficients that were asked for. -/
theorem size_le {later : CoefficientTable p} {asked : List (Fp p)}
    (h : Grown empty later asked) :
    later.values.size ≤ asked.dedup.length := by
  have hAsked : later.values.toList ⊆ asked.dedup := by
    intro value hValue
    have hAdded := h.added value hValue
    simpa [empty] using hAdded
  have hNodup := (h.lawful lawful_empty).nodup
  simpa using (List.Nodup.subperm hNodup hAsked).length_le

end Grown

/-- The table after a coefficient that had no slot. -/
def push (table : CoefficientTable p) (value : Fp p) : CoefficientTable p :=
  ⟨table.values.push value,
    table.slots.insert value.val table.values.size.toUInt32⟩

theorem insert_known {table : CoefficientTable p} {value : Fp p} {slot : UInt32}
    (h : table.slots[value.val]? = some slot) :
    table.insert value = (slot, table) := by
  simp [insert, h]

theorem insert_new {table : CoefficientTable p} {value : Fp p}
    (h : table.slots[value.val]? = none) :
    table.insert value = (table.values.size.toUInt32, table.push value) := by
  simp [insert, push, h]

private theorem push_grown {table : CoefficientTable p} {value : Fp p}
    (hNew : table.slots[value.val]? = none) :
    Grown table (table.push value) [value] where
  lawful := by
    intro hTable
    have hFresh : value ∉ table.values.toList :=
      fun hMem => hTable.stored value hMem hNew
    refine ⟨?_, ?_, ?_⟩
    · simp only [push, Array.toList_push, List.nodup_append, List.mem_singleton]
      refine ⟨hTable.nodup, List.nodup_singleton value, ?_⟩
      rintro stored hStored _ rfl rfl
      exact hFresh hStored
    · intro stored hStored
      simp only [push, Array.toList_push, List.mem_append, List.mem_singleton]
        at hStored
      by_cases hSame : value = stored
      · simp [push, hSame]
      · have hOld : stored ∈ table.values.toList := by tauto
        have hDifferent : value.val ≠ stored.val := fun h => hSame (Fp.ext h)
        simpa [push, Std.TreeMap.getElem?_insert, hDifferent]
          using hTable.stored stored hOld
    · intro hSize stored slot hSlot
      simp only [push, Array.size_push] at hSize
      by_cases hSame : value = stored
      · have hNumber : slot = table.values.size.toUInt32 := by
          simpa [push, hSame, eq_comm] using hSlot
        have hValue : slot.toNat = table.values.size := by
          rw [hNumber, Nat.toUInt32_eq, UInt32.toNat_ofNat']
          exact Nat.mod_eq_of_lt (by omega)
        simp [push, hValue, hSame]
      · have hDifferent : value.val ≠ stored.val := fun h => hSame (Fp.ext h)
        have hOld : table.slots[stored.val]? = some slot := by
          simpa [push, Std.TreeMap.getElem?_insert, hDifferent] using hSlot
        have hValue := hTable.slot (by omega) stored slot hOld
        have hBound := (Array.getElem?_eq_some_iff.mp hValue).1
        simp only [push]
        rw [Array.getElem?_push_lt hBound,
          ← Array.getElem?_eq_getElem hBound, hValue]
  keeps := by
    intro slot stored hSlot
    have hBound := (Array.getElem?_eq_some_iff.mp hSlot).1
    simp only [push]
    rw [Array.getElem?_push_lt hBound,
      ← Array.getElem?_eq_getElem hBound, hSlot]
  added := by
    intro stored hStored
    simpa [push] using hStored

theorem insert_grown (table : CoefficientTable p) (value : Fp p) :
    Grown table (table.insert value).2 [value] := by
  cases hSlot : table.slots[value.val]? with
  | none =>
      rw [insert_new hSlot]
      exact push_grown hSlot
  | some slot =>
      rw [insert_known hSlot]
      exact ⟨id, fun _ _ h => h, fun _ h => Or.inl h⟩

theorem insert_slot {table : CoefficientTable p} (hTable : table.Lawful)
    (value : Fp p) (hSize : (table.insert value).2.values.size ≤ 2 ^ 32) :
    (table.insert value).2.values[(table.insert value).1.toNat]? =
      some value := by
  have hLawful := (insert_grown table value).lawful hTable
  refine hLawful.slot hSize value _ ?_
  cases hSlot : table.slots[value.val]? with
  | none => simp [insert_new hSlot, push]
  | some slot => simp [insert_known hSlot, hSlot]

theorem insertAll_grown (values : List (Fp p)) (table : CoefficientTable p) :
    Grown table (values.foldl (fun table value =>
      (table.insert value).2) table) values := by
  induction values generalizing table with
  | nil => exact Grown.refl table
  | cons value values ih => exact (insert_grown table value).trans (ih _)

/-- The coefficients that every table holds. -/
def seeds (p : Nat) [Modulus p] : List (Fp p) := [0, 1, 1 + 1, -1]

theorem initial_grown [Modulus p] :
    Grown empty (initial : CoefficientTable p) (seeds p) :=
  insertAll_grown _ empty

end CoefficientTable

end RankOne
