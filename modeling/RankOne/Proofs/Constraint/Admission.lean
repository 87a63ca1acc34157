import Mathlib.Data.Set.Card
import Mathlib.Order.Lattice.Nat
import RankOne.Proofs.Constraint.Validation

/-!
# Which systems are admitted

Validation is a sequence of loops that share a map of producers and a set of
occurring wires, and each loop ends with the first fault that it meets. What
passes all of them can be said without the loops: the outputs of all hints, put
one after the other, are distinct internal wires, all terms are in range, and no
wire but the one wire is idle. A system with idle wires and no other fault is
rejected for the first class of wires that has some, with their exact number.

The marks of all wires are kept in one list, so that from `2 ^ 63` wires on
validation ends in a fault before any wire is looked at.
-/

namespace RankOne

variable {p : Nat}

/-! ## The condition -/

namespace FlatSystem

/-- A wire occurs in a constraint. -/
def Occurs (system : FlatSystem p) (wire : Nat) : Prop :=
  ∃ c ∈ system.constraints.toList, ∃ term ∈ c.terms, term.wire = wire

/-- The outputs of the hints, one hint after the other. -/
def outputs (system : FlatSystem p) : List Nat :=
  system.hints.toList.flatMap Hint.wires

/-- All that validation asks for, except that wires occur in constraints. -/
structure WellBuilt (system : FlatSystem p) : Prop where
  constraints_pos : 0 < system.constraints.size
  public_pos : 0 < system.layout.numPublic.toNat
  terms_inRange : ∀ c ∈ system.constraints.toList, ∀ term ∈ c.terms,
    system.TermInRange term
  hintTerms_inRange : ∀ hint ∈ system.hints.toList, ∀ term ∈ hint.terms,
    system.TermInRange term
  outputs_ne_nil : ∀ hint ∈ system.hints.toList, hint.wires ≠ []
  outputs_internal : ∀ wire ∈ system.outputs,
    system.layout.numInputs ≤ wire ∧ wire < system.layout.numWires
  outputs_nodup : system.outputs.Nodup

/-- All that validation asks for. -/
structure Admissible (system : FlatSystem p) :
    Prop extends system.WellBuilt where
  occurs : ∀ wire, 0 < wire → wire < system.layout.numWires → system.Occurs wire

/-- The inputs, but for the one wire, that occur in no constraint. -/
def idleInputs (system : FlatSystem p) : Set Nat :=
  {wire | 0 < wire ∧ wire < system.layout.numInputs ∧ ¬ system.Occurs wire}

/-- The hint outputs that occur in no constraint. -/
def idleOutputs (system : FlatSystem p) : Set Nat :=
  {wire | wire ∈ system.outputs ∧ ¬ system.Occurs wire}

/-- The internal wires that occur in no constraint. -/
def idleInternal (system : FlatSystem p) : Set Nat :=
  {wire | system.layout.numInputs ≤ wire ∧ wire < system.layout.numWires ∧
    ¬ system.Occurs wire}

/-- How many wires there are in a class, and the smallest of them. -/
structure Tally (wires : Set Nat) (count first : Nat) : Prop where
  card : wires.ncard = count
  least : IsLeast wires first

private theorem Tally.nonempty {wires : Set Nat} {count first : Nat}
    (h : Tally wires count first) : wires.Nonempty := ⟨first, h.least.1⟩

private theorem exists_tally {wires : Set Nat} (h : wires.Nonempty) :
    ∃ count first, Tally wires count first :=
  ⟨wires.ncard, sInf wires, rfl, Nat.sInf_mem h, fun _ => Nat.sInf_le⟩

/-- The first class of wires of which some are idle, with its report. -/
inductive FirstIdle (system : FlatSystem p) :
    Set Nat → (Nat → Nat → SystemError) → Prop where
  | inputs (hSome : system.idleInputs.Nonempty) :
      FirstIdle system system.idleInputs .unconstrainedInputs
  | outputs (hInputs : system.idleInputs = ∅)
      (hSome : system.idleOutputs.Nonempty) :
      FirstIdle system system.idleOutputs .unconstrainedHints
  | internal (hInputs : system.idleInputs = ∅)
      (hOutputs : system.idleOutputs = ∅)
      (hSome : system.idleInternal.Nonempty) :
      FirstIdle system system.idleInternal .unconstrainedInternal

variable {system : FlatSystem p}

namespace FirstIdle

variable {wires wires' : Set Nat} {reject reject' : Nat → Nat → SystemError}

private theorem nonempty (h : system.FirstIdle wires reject) :
    wires.Nonempty := by
  cases h <;> assumption

private theorem unique (h : system.FirstIdle wires reject)
    (h' : system.FirstIdle wires' reject') :
    wires = wires' ∧ reject = reject' := by
  cases h with
  | inputs hSome =>
      cases h' with
      | inputs _ => exact ⟨rfl, rfl⟩
      | outputs hNone _ => exact absurd hNone hSome.ne_empty
      | internal hNone _ _ => exact absurd hNone hSome.ne_empty
  | outputs hNone hSome =>
      cases h' with
      | inputs hSome' => exact absurd hNone hSome'.ne_empty
      | outputs _ _ => exact ⟨rfl, rfl⟩
      | internal _ hNone' _ => exact absurd hNone' hSome.ne_empty
  | internal hNone hNone' _ =>
      cases h' with
      | inputs hSome' => exact absurd hNone hSome'.ne_empty
      | outputs _ hSome' => exact absurd hNone' hSome'.ne_empty
      | internal _ _ _ => exact ⟨rfl, rfl⟩

end FirstIdle

/-! ## Loops that pass -/

/-- New internal wires can be entered. -/
private theorem enterOutputs_total {layout : Layout} (number : Nat)
    {wires : List Nat} {producers : Std.TreeMap Nat Nat} (hNodup : wires.Nodup)
    (hNew : ∀ wire ∈ wires, layout.numInputs ≤ wire ∧ wire < layout.numWires ∧
      producers[wire]? = none) :
    ∃ entered, enterOutputs layout number wires producers = .ok entered := by
  induction wires generalizing producers with
  | nil => exact ⟨producers, rfl⟩
  | cons wire rest ih =>
      obtain ⟨hAbsent, hRest⟩ := List.nodup_cons.mp hNodup
      obtain ⟨hLow, hHigh, hNone⟩ := hNew wire List.mem_cons_self
      have hOutside : ¬ producers.contains wire = true := by
        rw [Std.TreeMap.contains_eq_isSome_getElem?, hNone]
        exact Bool.false_ne_true
      unfold enterOutputs
      rw [if_neg (by omega), if_neg hOutside]
      refine ih hRest fun other hOther => ?_
      obtain ⟨hLow', hHigh', hNone'⟩ :=
        hNew other (List.mem_cons_of_mem _ hOther)
      have hDifferent : wire ≠ other := fun hSame => hAbsent (hSame ▸ hOther)
      refine ⟨hLow', hHigh', ?_⟩
      simpa [Std.TreeMap.getElem?_insert, hDifferent] using hNone'

private theorem checkHint_total (number : Nat) {hint : Hint p}
    {producers : Std.TreeMap Nat Nat} (hChecked : system.HintChecked hint)
    (hNew : ∀ wire ∈ hint.wires, producers[wire]? = none) :
    ∃ entered, system.checkHint number hint producers = .ok entered := by
  obtain ⟨entered, hEntered⟩ := enterOutputs_total number hChecked.outputs_nodup
    fun wire hWire => ⟨(hChecked.outputs_internal wire hWire).1,
      (hChecked.outputs_internal wire hWire).2, hNew wire hWire⟩
  have hTerms : hint.terms.findSome? system.termFault? = none := by
    rw [List.findSome?_eq_none_iff]
    exact fun term hTerm =>
      termFault?_eq_none_iff.mpr (hChecked.terms_inRange term hTerm)
  unfold checkHint
  rw [if_neg (by simpa using hChecked.outputs_ne_nil), hEntered]
  simp only [hTerms]
  exact ⟨entered, rfl⟩

/-- Hints with distinct outputs pass one after the other. -/
theorem checkHints_total (number : Nat) {hints : List (Hint p)}
    {producers : Std.TreeMap Nat Nat}
    (hChecked : ∀ hint ∈ hints, system.HintChecked hint)
    (hNodup : (hints.flatMap Hint.wires).Nodup)
    (hNew : ∀ wire ∈ hints.flatMap Hint.wires, producers[wire]? = none) :
    ∃ entered, system.checkHints number hints producers = .ok entered := by
  induction hints generalizing number producers with
  | nil => exact ⟨producers, rfl⟩
  | cons hint rest ih =>
      rw [List.flatMap_cons] at hNodup hNew
      obtain ⟨-, hRest, hDisjoint⟩ := List.nodup_append.mp hNodup
      obtain ⟨grown, hGrown⟩ := checkHint_total number
        (hChecked hint List.mem_cons_self) fun wire hWire =>
          hNew wire (List.mem_append_left _ hWire)
      unfold checkHints
      rw [hGrown]
      refine ih (number + 1) (fun other hOther =>
        hChecked other (List.mem_cons_of_mem _ hOther)) hRest
        fun wire hWire => ?_
      have hOutside : wire ∉ hint.wires :=
        fun hOwn => hDisjoint wire hOwn wire hWire rfl
      rw [(checkHint_eq_ok hGrown).2.2 wire, if_neg hOutside]
      exact hNew wire (List.mem_append_right _ hWire)

/-! ## Idle wires -/

private theorem contains_mentioned {wire : Nat} :
    system.mentioned.contains wire = true ↔ system.Occurs wire :=
      contains_mentioned_iff

/-- A sorted list passes when none of its wires is idle; otherwise its idle
wires are counted, and the smallest is named. -/
private theorem requireMentioned_cases (system : FlatSystem p)
    (reject : Nat → Nat → SystemError) {wires : List Nat}
    (hSorted : wires.Pairwise (· < ·)) {idle : Set Nat}
    (hIdle : ∀ wire, wire ∈ idle ↔ wire ∈ wires ∧ ¬ system.Occurs wire) :
    (idle = ∅ ∧ requireMentioned system.mentioned reject wires = .ok ()) ∨
      ∃ count first, Tally idle count first ∧
        requireMentioned system.mentioned reject wires =
          rejectIdle reject count first := by
  have hKept : ∀ wire,
      wire ∈ wires.filter (fun wire => !system.mentioned.contains wire) ↔
      wire ∈ idle := by
    intro wire
    rw [hIdle, List.mem_filter, Bool.not_eq_true', ← Bool.not_eq_true,
      contains_mentioned]
  have hOrder := hSorted.filter (fun wire => !system.mentioned.contains wire)
  unfold requireMentioned
  cases hFilter :
    wires.filter (fun wire => !system.mentioned.contains wire) with
  | nil =>
      refine Or.inl ⟨Set.eq_empty_iff_forall_notMem.mpr fun wire hWire => ?_,
        rfl⟩
      have hMem := (hKept wire).mpr hWire
      rw [hFilter] at hMem
      cases hMem
  | cons first rest =>
      rw [hFilter] at hKept hOrder
      have hSame : idle = ((first :: rest).toFinset : Set Nat) := by
        ext wire
        rw [← hKept, Finset.mem_coe, List.mem_toFinset]
      refine Or.inr ⟨rest.length + 1, first,
        ⟨?_, ?_, fun wire hWire => ?_⟩, rfl⟩
      · rw [hSame, Set.ncard_coe_finset,
          List.toFinset_card_of_nodup (hOrder.imp fun hLess =>
            Nat.ne_of_lt hLess),
          List.length_cons]
      · exact (hKept first).mp List.mem_cons_self
      · rcases List.mem_cons.mp ((hKept wire).mpr hWire) with rfl | hLater
        · exact Nat.le_refl _
        · exact Nat.le_of_lt (List.rel_of_pairwise_cons hOrder hLater)

private theorem rejectIdle_bind {reject : Nat → Nat → SystemError}
    {count first : Nat} (rest : Unit → Outcome SystemError Unit) :
    rejectIdle reject count first >>= rest = rejectIdle reject count first := by
  unfold rejectIdle
  split <;> rfl

/-- The classes of wires are gone through in order, up to the first with an
idle wire. -/
theorem checkMentioned_cases {producers : Std.TreeMap Nat Nat}
    (hProducers : ∀ wire, wire ∈ producers ↔ wire ∈ system.outputs) :
    (system.idleInputs = ∅ ∧ system.idleOutputs = ∅ ∧ system.idleInternal = ∅ ∧
        system.checkMentioned producers = .ok ()) ∨
      ∃ wires reject count first, system.FirstIdle wires reject ∧
        Tally wires count first ∧
        system.checkMentioned producers = rejectIdle reject count first := by
  -- All three lists of wires are sorted, so that the first idle wire of each is
  -- the smallest.
  have hKeys : producers.keys.Pairwise (· < ·) :=
    Std.TreeMap.ordered_keys.imp fun hLess => Nat.compare_eq_lt.mp hLess
  have hInputWires : ∀ wire, wire ∈ system.idleInputs ↔
      wire ∈ List.range' 1 (system.layout.numInputs - 1) ∧
        ¬ system.Occurs wire := by
    intro wire
    rw [List.mem_range'_1]
    exact and_assoc.symm.trans (and_congr_left' (by omega))
  have hOutputWires : ∀ wire, wire ∈ system.idleOutputs ↔
      wire ∈ producers.keys ∧ ¬ system.Occurs wire := by
    intro wire
    rw [Std.TreeMap.mem_keys, hProducers]
    rfl
  have hInternalWires : ∀ wire, wire ∈ system.idleInternal ↔
      wire ∈ List.range' system.layout.numInputs
        (system.layout.numWires - system.layout.numInputs) ∧
          ¬ system.Occurs wire := by
    intro wire
    rw [List.mem_range'_1]
    exact and_assoc.symm.trans (and_congr_left' (by omega))
  have hInputs := requireMentioned_cases system .unconstrainedInputs
    (List.pairwise_lt_range' 1) hInputWires
  have hOutputs :=
    requireMentioned_cases system .unconstrainedHints hKeys hOutputWires
  have hInternal := requireMentioned_cases system .unconstrainedInternal
    (List.pairwise_lt_range' 1) hInternalWires
  unfold checkMentioned
  dsimp only
  rcases hInputs with ⟨hNone, hPass⟩ | ⟨count, first, hTally, hReject⟩
  · rw [hPass, ok_bind]
    rcases hOutputs with ⟨hNone', hPass'⟩ | ⟨count, first, hTally, hReject⟩
    · rw [hPass', ok_bind]
      rcases hInternal with ⟨hNone'', hPass''⟩ | ⟨count, first, hTally, hReject⟩
      · exact Or.inl ⟨hNone, hNone', hNone'', hPass''⟩
      · exact Or.inr ⟨_, _, count, first,
          .internal hNone hNone' hTally.nonempty, hTally, hReject⟩
    · rw [hReject, rejectIdle_bind]
      exact Or.inr ⟨_, _, count, first, .outputs hNone hTally.nonempty,
        hTally, rfl⟩
  · rw [hReject, rejectIdle_bind]
    exact Or.inr ⟨_, _, count, first, .inputs hTally.nonempty, hTally, rfl⟩

/-! ## Admitted systems -/

/-- What is asked for in terms of the outputs of single hints. -/
private theorem WellBuilt.hintChecked (h : system.WellBuilt) {hint : Hint p}
    (hHint : hint ∈ system.hints.toList) : system.HintChecked hint where
  outputs_ne_nil := h.outputs_ne_nil hint hHint
  outputs_nodup := (List.nodup_flatMap.mp h.outputs_nodup).1 hint hHint
  outputs_internal := fun wire hWire =>
    h.outputs_internal wire (List.mem_flatMap.mpr ⟨hint, hHint, hWire⟩)
  terms_inRange := h.hintTerms_inRange hint hHint

/-- Wire numbers in terms have 32 bits, so that an admissible system has no more
wires than that. -/
theorem Admissible.numWires_le (h : system.Admissible) :
    system.layout.numWires ≤ 2 ^ 32 := by
  by_contra hMany
  obtain ⟨c, -, term, -, hWire⟩ := h.occurs (2 ^ 32) (by decide) (by omega)
  have hBound := term.wireId.toNat_lt
  unfold Term.wire at hWire
  omega

private theorem isEmpty_ne_true (h : 0 < system.constraints.size) :
    ¬ system.constraints.isEmpty = true := by
  rw [Array.isEmpty_iff_size_eq_zero]
  exact Nat.ne_of_gt h

private theorem numPublic_ne_zero (h : 0 < system.layout.numPublic.toNat) :
    ¬ system.layout.numPublic = 0 := by
  intro hZero
  rw [hZero] at h
  exact absurd h (by decide)

/-- The map of producers knows the outputs of the hints that it has been
through. -/
private theorem mem_producers_iff {producers : Std.TreeMap Nat Nat}
    (hHints : system.checkHints 0 system.hints.toList ∅ = .ok producers)
    {wire : Nat} :
    wire ∈ producers ↔ wire ∈ system.outputs := by
  have hEntered := (checkHints_eq_ok hHints).2 wire
  rw [Std.TreeMap.mem_iff_isSome_getElem?, Option.isSome_iff_exists]
  constructor
  · rintro ⟨number, hNumber⟩
    rcases (hEntered number).mp hNumber with hNone | ⟨i, hint, hGet, hWire, -⟩
    · simp at hNone
    · exact List.mem_flatMap.mpr ⟨hint, List.mem_of_getElem? hGet, hWire⟩
  · intro hWire
    obtain ⟨hint, hHint, hWire⟩ := List.mem_flatMap.mp hWire
    obtain ⟨i, hGet⟩ := List.mem_iff_getElem?.mp hHint
    exact ⟨0 + i, (hEntered (0 + i)).mpr (Or.inr ⟨i, hint, hGet, hWire, rfl⟩)⟩

/-- Without any other fault, it is the idle wires that decide. -/
private theorem WellBuilt.validate_eq (h : system.WellBuilt)
    (hFits : system.layout.Fits) (hMemory : system.layout.numWires < 2 ^ 63) :
    ∃ producers : Std.TreeMap Nat Nat,
      (∀ wire, wire ∈ producers ↔ wire ∈ system.outputs) ∧
      system.validate = (system.checkMentioned producers).map
        fun _ => { system with producers } := by
  have hWires := hFits.numWires_eq
  obtain ⟨producers, hHints⟩ :=
    checkHints_total 0 (fun hint hHint => h.hintChecked hHint)
      h.outputs_nodup fun _ _ => Std.TreeMap.getElem?_emptyc
  have hConstraints :
      system.checkConstraints 0 system.constraints.toList = .ok () :=
    checkConstraints_eq_ok.mpr h.terms_inRange
  have hMarks : ¬ exceedsMemory system.layout = true := by
    unfold exceedsMemory
    rw [decide_eq_true_eq]
    omega
  have hInputs : ¬ inputsExceedWires system.layout = true := by
    unfold inputsExceedWires
    rw [Bool.and_eq_true, decide_eq_true_eq]
    omega
  refine ⟨producers, fun wire => mem_producers_iff hHints, ?_⟩
  unfold validate
  rw [if_neg (isEmpty_ne_true h.constraints_pos),
    if_neg (numPublic_ne_zero h.public_pos),
    if_neg fun hOverflow => hOverflow.2 hFits, if_neg hMarks, hConstraints,
    hHints]
  show (if inputsExceedWires system.layout = true then _ else _) = _
  rw [if_neg hInputs]
  cases system.checkMentioned producers with
  | ok _ => rfl
  | error e => rfl

/-- From `2 ^ 63` wires on, there is no room for the marks of all wires. -/
private theorem validate_of_exceedsMemory
    (hConstraints : 0 < system.constraints.size)
    (hPublic : 0 < system.layout.numPublic.toNat) (hFits : system.layout.Fits)
    (hMany : 2 ^ 63 ≤ system.layout.numWires) :
    system.validate = Outcome.abandon .capacityOverflow := by
  have hMarks : exceedsMemory system.layout = true := decide_eq_true hMany
  unfold validate
  rw [if_neg (isEmpty_ne_true hConstraints), if_neg (numPublic_ne_zero hPublic),
    if_neg fun hOverflow => hOverflow.2 hFits, if_pos hMarks]

end FlatSystem

/-- An admitted system with more inputs than wires has one input and no wire. -/
theorem FlatSystem.numInputs_le {system : FlatSystem p}
    {arithmetic : Arithmetic} {valid : ValidSystem p}
    (h : system.validate arithmetic = .ok valid) :
    system.layout.numInputs ≤ system.layout.numWires ∨
      (system.layout.numInputs = 1 ∧ system.layout.numWires = 0) := by
  obtain ⟨-, -, -, -, -, -, -, hInputs, -, -⟩ := validate_eq_ok.mp h
  rw [inputsExceedWires, Bool.and_eq_false_iff, decide_eq_false_iff_not,
    decide_eq_false_iff_not] at hInputs
  omega

/-- What is guaranteed of an admitted system was asked for. -/
theorem ValidSystem.WellFormed.admissible {system : ValidSystem p}
    (h : system.WellFormed) :
    system.toFlatSystem.Admissible where
  constraints_pos := h.constraints_pos
  public_pos := h.public_pos
  terms_inRange := by
    intro c hc
    obtain ⟨number, hGet⟩ := mem_toList_iff_getElem?.mp hc
    exact h.terms_inRange number c hGet
  hintTerms_inRange := by
    intro hint hHint
    obtain ⟨number, hGet⟩ := mem_toList_iff_getElem?.mp hHint
    exact h.hintTerms_inRange number hint hGet
  outputs_ne_nil := by
    intro hint hHint
    obtain ⟨number, hGet⟩ := mem_toList_iff_getElem?.mp hHint
    exact h.outputs_ne_nil number hint hGet
  outputs_internal := by
    intro wire hWire
    obtain ⟨hint, hHint, hWire⟩ := List.mem_flatMap.mp hWire
    obtain ⟨number, hGet⟩ := mem_toList_iff_getElem?.mp hHint
    exact h.outputs_internal number hint hGet wire hWire
  outputs_nodup := by
    refine List.nodup_flatMap.mpr ⟨fun hint hHint => ?_, ?_⟩
    · obtain ⟨number, hGet⟩ := mem_toList_iff_getElem?.mp hHint
      exact h.outputs_nodup number hint hGet
    · rw [List.pairwise_iff_getElem]
      intro i j hi hj hLess wire hWire hWire'
      have hGet : ∀ k (hk : k < system.hints.toList.length),
          system.hints[k]? = some system.hints.toList[k] := by
        intro k hk
        rw [← Array.getElem?_toList, List.getElem?_eq_getElem hk]
      have hSame := (h.producer_unique (hGet i hi) hWire (hGet j hj) hWire').1
      omega
  occurs := by
    intro wire hPos hWire
    obtain ⟨number, c, hGet, hTerm⟩ := h.mentioned wire hPos hWire
    exact ⟨c, mem_toList_iff_getElem?.mpr ⟨number, hGet⟩, hTerm⟩

namespace FlatSystem

variable {system : FlatSystem p}

/-- A system whose only fault is that wires are idle is rejected for the first
class that has some. They are reported if there is room for a mark of every wire
and for a list of the idle ones. -/
theorem WellBuilt.validate_idle (h : system.WellBuilt)
    (hFits : system.layout.Fits) {wires : Set Nat}
    {reject : Nat → Nat → SystemError}
    (hIdle : system.FirstIdle wires reject) :
    ∃ count first, Tally wires count first ∧
      system.validate =
        if system.layout.numWires < 2 ^ 63 ∧ count ≤ 2 ^ 59 then
          Outcome.report (reject count first)
        else Outcome.abandon .capacityOverflow := by
  by_cases hMemory : system.layout.numWires < 2 ^ 63
  · obtain ⟨producers, hProducers, hValidate⟩ := h.validate_eq hFits hMemory
    rcases checkMentioned_cases hProducers with ⟨hNone, hNone', hNone'', -⟩ |
      ⟨wires', reject', count, first, hFirst, hTally, hReject⟩
    · cases hIdle with
      | inputs hSome => exact absurd hNone hSome.ne_empty
      | outputs _ hSome => exact absurd hNone' hSome.ne_empty
      | internal _ _ hSome => exact absurd hNone'' hSome.ne_empty
    · obtain ⟨rfl, rfl⟩ := hIdle.unique hFirst
      refine ⟨count, first, hTally, ?_⟩
      have hLimit : collectionLimit = 2 ^ 59 := rfl
      rw [hValidate, hReject, rejectIdle, hLimit]
      by_cases hRoom : count ≤ 2 ^ 59
      · rw [if_neg (Nat.not_lt.mpr hRoom), if_pos ⟨hMemory, hRoom⟩]
        rfl
      · rw [if_pos (Nat.lt_of_not_le hRoom), if_neg fun hBoth => hRoom hBoth.2]
        rfl
  · obtain ⟨count, first, hTally⟩ := exists_tally hIdle.nonempty
    refine ⟨count, first, hTally, ?_⟩
    rw [if_neg fun hBoth => hMemory hBoth.1]
    exact validate_of_exceedsMemory h.constraints_pos h.public_pos hFits
      (Nat.le_of_not_lt hMemory)

/-- Admissible systems are admitted. -/
private theorem Admissible.exists_valid (h : system.Admissible)
    (hFits : system.layout.Fits) :
    ∃ valid, system.validate = .ok valid := by
  have hInputs := hFits.numInputs_eq
  have hWires := hFits.numWires_eq
  have hPublic := h.public_pos
  obtain ⟨producers, hProducers, hValidate⟩ := h.toWellBuilt.validate_eq hFits
    (Nat.lt_of_le_of_lt h.numWires_le (by decide))
  rcases checkMentioned_cases hProducers with ⟨-, -, -, hPass⟩ |
    ⟨wires, reject, count, first, hFirst, hTally, -⟩
  · exact ⟨{ system with producers }, by rw [hValidate, hPass]; rfl⟩
  · have hMember : first ∈ wires := hTally.least.1
    cases hFirst with
    | inputs _ =>
        obtain ⟨hPos, hInput, hIdle⟩ := hMember
        exact absurd (h.occurs first hPos (by omega)) hIdle
    | outputs _ _ =>
        obtain ⟨hOutput, hIdle⟩ := hMember
        obtain ⟨hLow, hHigh⟩ := h.outputs_internal first hOutput
        exact absurd (h.occurs first (by omega) hHigh) hIdle
    | internal _ _ _ =>
        obtain ⟨hLow, hHigh, hIdle⟩ := hMember
        exact absurd (h.occurs first (by omega) hHigh) hIdle

/-- A system whose counts add up to a word is admitted if and only if it is
admissible. If its only fault is that wires are idle, those of the first class
that has some are counted and reported, unless there are `2 ^ 63` wires or more
than `2 ^ 59` of them: then validation is abandoned. The producer of a wire of
an admitted system is the hint that lists it. -/
theorem validate_exact (hFits : system.layout.Fits) :
    ((∃ valid, system.validate = .ok valid) ↔ system.Admissible) ∧
      (system.WellBuilt → ∀ wires reject, system.FirstIdle wires reject →
        ∃ count first, Tally wires count first ∧
          system.validate =
            if system.layout.numWires < 2 ^ 63 ∧ count ≤ 2 ^ 59 then
              Outcome.report (reject count first)
            else Outcome.abandon .capacityOverflow) ∧
      ∀ valid, system.validate = .ok valid → ∀ wire number hint,
        valid.hintFor? wire = some (number, hint) ↔
          system.hints[number]? = some hint ∧ wire ∈ hint.wires := by
  refine ⟨⟨?_, fun h => h.exists_valid hFits⟩,
    fun h wires reject hIdle => h.validate_idle hFits hIdle, ?_⟩
  · rintro ⟨valid, hValid⟩
    obtain ⟨rfl, hSystem⟩ := validate_wellFormed hValid
    exact hSystem.admissible
  · intro valid hValid wire number hint
    obtain ⟨rfl, hSystem⟩ := validate_wellFormed hValid
    exact hSystem.hintFor?_eq_some_iff

end FlatSystem

/-- A system whose only constraint is on the one wire and `x`, so that `count`
internal wires are idle. -/
def idleSystem (count : UInt64) : FlatSystem 17 where
  layout := ⟨1, 1, count⟩
  constraints := #[⟨[⟨0, 0⟩], [⟨0, 0⟩], [⟨0, 1⟩]⟩]
  coefficients := #[1]
  hints := #[]

private theorem idleSystem_wellBuilt {count : UInt64}
    (h : 2 ≤ (idleSystem count).layout.numWires) :
    (idleSystem count).WellBuilt where
  constraints_pos := Nat.one_pos
  public_pos := Nat.one_pos
  terms_inRange := by
    intro c hc term hTerm
    rw [List.mem_singleton.mp hc] at hTerm
    have hWire : term.wire < 2 ∧ term.slot.toNat < 1 := by
      revert term
      decide
    exact ⟨by omega, hWire.2⟩
  hintTerms_inRange := by simp [idleSystem]
  outputs_ne_nil := by simp [idleSystem]
  outputs_internal := by simp [idleSystem, FlatSystem.outputs]
  outputs_nodup := List.nodup_nil

private theorem occurs_idleSystem {count : UInt64} {wire : Nat} :
    (idleSystem count).Occurs wire ↔ wire < 2 := by
  have hTerms : (idleSystem count).Occurs wire ↔ 0 = wire ∨ 1 = wire := by
    simp [FlatSystem.Occurs, idleSystem, Constraint.terms, Term.wire]
  rw [hTerms]
  omega

private theorem idleInputs_idleSystem {count : UInt64} :
    (idleSystem count).idleInputs = ∅ :=
  Set.eq_empty_iff_forall_notMem.mpr fun _ ⟨_, hWire, hIdle⟩ =>
    hIdle (occurs_idleSystem.mpr hWire)

private theorem idleOutputs_idleSystem {count : UInt64} :
    (idleSystem count).idleOutputs = ∅ :=
  Set.eq_empty_iff_forall_notMem.mpr fun _ ⟨hOutput, _⟩ =>
    List.not_mem_nil hOutput

private theorem idleInternal_idleSystem {count : UInt64}
    (h : 2 < (idleSystem count).layout.numWires) :
    (idleSystem count).idleInternal.Nonempty :=
  ⟨2, Nat.le_refl 2, h,
    fun hOccurs => absurd (occurs_idleSystem.mp hOccurs) (by decide)⟩

/-- With two internal wires, both are reported. -/
theorem validate_exact_idle : (idleSystem 2).layout.Fits ∧
    (idleSystem 2).WellBuilt ∧
    (idleSystem 2).FirstIdle (idleSystem 2).idleInternal
      .unconstrainedInternal ∧
    FlatSystem.Tally (idleSystem 2).idleInternal 2 2 ∧
    (idleSystem 2).validate =
      Outcome.report (.unconstrainedInternal 2 2) := by
  have hBuilt : (idleSystem 2).WellBuilt := idleSystem_wellBuilt (by decide)
  have hFirst : (idleSystem 2).FirstIdle _ _ := .internal idleInputs_idleSystem
    idleOutputs_idleSystem (idleInternal_idleSystem (by decide))
  obtain ⟨count, first, hTally, hReject⟩ :=
    (FlatSystem.validate_exact (by decide)).2.1 hBuilt _ _ hFirst
  have hRun : (match (idleSystem 2).validate with
      | .error failure =>
          decide (failure = .reported (.unconstrainedInternal 2 2))
      | .ok _ => false) = true := by
    decide +kernel
  by_cases hRoom : (idleSystem 2).layout.numWires < 2 ^ 63 ∧ count ≤ 2 ^ 59
  · rw [if_pos hRoom] at hReject
    rw [hReject] at hRun
    have hSame := of_decide_eq_true hRun
    injection hSame with hSame
    injection hSame with hCount hLeast
    subst hCount hLeast
    exact ⟨by decide, hBuilt, hFirst, hTally, hReject⟩
  · rw [if_neg hRoom] at hReject
    rw [hReject] at hRun
    exact absurd (of_decide_eq_true hRun) (by decide)

/-- With `2 ^ 63` wires in all, nothing is reported, although idle wires are the
only fault. -/
theorem not_validate_reports : (idleSystem 9223372036854775806).layout.Fits ∧
    (idleSystem 9223372036854775806).WellBuilt ∧
    (idleSystem 9223372036854775806).idleInputs = ∅ ∧
    (idleSystem 9223372036854775806).idleOutputs = ∅ ∧
    (idleSystem 9223372036854775806).idleInternal.Nonempty ∧
    ∀ e, (idleSystem 9223372036854775806).validate ≠ Outcome.report e := by
  have hWires : (idleSystem 9223372036854775806).layout.numWires = 2 ^ 63 := by
    decide +kernel
  have hBuilt : (idleSystem 9223372036854775806).WellBuilt :=
    idleSystem_wellBuilt (by rw [hWires]; decide)
  have hFits : (idleSystem 9223372036854775806).layout.Fits := by decide +kernel
  have hFault := FlatSystem.validate_of_exceedsMemory hBuilt.constraints_pos
    hBuilt.public_pos hFits (Nat.le_of_eq hWires.symm)
  refine ⟨hFits, hBuilt, idleInputs_idleSystem, idleOutputs_idleSystem,
    idleInternal_idleSystem (by rw [hWires]; decide), fun e hReport => ?_⟩
  rw [hFault] at hReport
  cases hReport

end RankOne
