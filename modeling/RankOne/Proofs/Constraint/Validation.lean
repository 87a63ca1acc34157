import Mathlib.Algebra.Group.Nat.Defs
import RankOne.Constraint.FlatSystem
import RankOne.Proofs.Outcome

/-!
# What validation guarantees

A system that validation admits has a one wire, all its terms name wires and
coefficients that are there, the outputs of its hints are distinct internal
wires, and the map of producers is the relation between hints and outputs.

## Main results

* `ValidSystem.WellFormed` — the guarantees;
* `FlatSystem.validate_eq_ok` — what it takes for a system to be admitted;
* `FlatSystem.validate_wellFormed` — every admitted system has them;
* `ValidSystem.WellFormed.hintFor?_eq_some_iff` — the producer of a wire is the
  hint that lists it.
-/

namespace RankOne

variable {p : Nat}

/-- What is in a table is found under a number. -/
theorem mem_toList_iff_getElem? {α : Type} {xs : Array α} {a : α} :
    a ∈ xs.toList ↔ ∃ number : Nat, xs[number]? = some a :=
  Array.mem_toList_iff.trans Array.mem_iff_getElem?

theorem getElem?_foldl_insert (node : Nat) (wires : List Nat)
    (map : Std.TreeMap Nat Nat) (wire : Nat) :
    (wires.foldl (fun map wire => map.insert wire node) map)[wire]? =
      if wire ∈ wires then some node else map[wire]? := by
  induction wires generalizing map with
  | nil => simp
  | cons first rest ih =>
      rw [List.foldl_cons, ih]
      by_cases hRest : wire ∈ rest
      · simp [hRest]
      · by_cases hFirst : first = wire
        · subst hFirst
          simp
        · simp [hRest, hFirst, Ne.symm hFirst, Std.TreeMap.getElem?_insert]

/-! ## Counts -/

namespace Layout.Fits

variable {layout : Layout} (h : layout.Fits)
include h

private theorem sum_lt : layout.numPublic.toNat + layout.numSecret.toNat +
    layout.numInternal.toNat < 2 ^ 64 := h

theorem numInputs_eq : layout.numInputs =
    layout.numPublic.toNat + layout.numSecret.toNat := by
  have hSum := h.sum_lt
  unfold Layout.numInputs
  rw [UInt64.toNat_add]
  omega

theorem numWires_eq :
    layout.numWires = layout.numInputs + layout.numInternal.toNat := by
  have hInputs := h.numInputs_eq
  have hSum := h.sum_lt
  unfold Layout.numInputs at hInputs ⊢
  unfold Layout.numWires
  rw [UInt64.toNat_add, hInputs]
  omega

end Layout.Fits

namespace Layout

variable {layout : Layout}

/-- The number of wires is the sum of the counts exactly if that is a word. -/
theorem sum_eq_numWires_iff :
    layout.numPublic.toNat + layout.numSecret.toNat + layout.numInternal.toNat =
      layout.numWires ↔ layout.Fits := by
  constructor
  · intro hSum
    have hBound : layout.numWires < 2 ^ 64 := UInt64.toNat_lt _
    rwa [← hSum] at hBound
  · intro hFits
    rw [hFits.numWires_eq, hFits.numInputs_eq]

/-- When the inputs are wires, the others are as many as there are internal
wires. -/
theorem numWires_sub_numInputs (h : layout.numInputs ≤ layout.numWires) :
    layout.numWires - layout.numInputs = layout.numInternal.toNat := by
  have hWires : layout.numWires =
      (layout.numInputs + layout.numInternal.toNat) % 2 ^ 64 :=
    UInt64.toNat_add ..
  have hInputs : layout.numInputs < 2 ^ 64 := UInt64.toNat_lt _
  have hInternal := layout.numInternal.toNat_lt
  omega

end Layout

/-! ## The checks -/

namespace FlatSystem

/-- A term names a wire and a coefficient of the system. -/
def TermInRange (system : FlatSystem p) (term : Term) : Prop :=
  term.wire < system.layout.numWires ∧
    term.slot.toNat < system.coefficients.size

theorem termFault?_eq_none_iff {system : FlatSystem p} {term : Term} :
    system.termFault? term = none ↔ system.TermInRange term := by
  unfold termFault? TermInRange
  split
  · simp
    omega
  · split
    · simp
      omega
    · simp
      omega

/-- The outputs of one hint are new internal wires, and they are entered as its
own. -/
private theorem enterOutputs_eq_ok {layout : Layout} {number : Nat}
    {wires : List Nat} {producers entered : Std.TreeMap Nat Nat}
    (h : enterOutputs layout number wires producers = .ok entered) :
    wires.Nodup ∧
      (∀ wire ∈ wires, layout.numInputs ≤ wire ∧ wire < layout.numWires ∧
        producers[wire]? = none) ∧
      ∀ wire, entered[wire]? = if wire ∈ wires then some number
        else producers[wire]? := by
  induction wires generalizing producers with
  | nil =>
      injection h with h
      subst h
      simp
  | cons wire rest ih =>
      unfold enterOutputs at h
      split at h
      · cases h
      next hInternal =>
      split at h
      · cases h
      next hNew =>
      obtain ⟨hNodup, hFresh, hEntered⟩ := ih h
      have hUnset : producers[wire]? = none := by
        cases hFound : producers[wire]? with
        | none => rfl
        | some other =>
            rw [Std.TreeMap.contains_eq_isSome_getElem?, hFound] at hNew
            exact absurd rfl hNew
      have hAbsent : wire ∉ rest := by
        intro hMem
        have hNone := (hFresh wire hMem).2.2
        rw [Std.TreeMap.getElem?_insert_self] at hNone
        cases hNone
      refine ⟨List.nodup_cons.mpr ⟨hAbsent, hNodup⟩, ?_, ?_⟩
      · intro other hOther
        rcases List.mem_cons.mp hOther with rfl | hOther
        · exact ⟨by omega, by omega, hUnset⟩
        · obtain ⟨hLow, hHigh, hNone⟩ := hFresh other hOther
          refine ⟨hLow, hHigh, ?_⟩
          have hDifferent : wire ≠ other :=
            fun hSame => hAbsent (hSame ▸ hOther)
          simpa [Std.TreeMap.getElem?_insert, hDifferent] using hNone
      · intro other
        rw [hEntered other]
        by_cases hSame : other = wire
        · subst hSame
          simp
        · simp [hSame, Ne.symm hSame, Std.TreeMap.getElem?_insert]

/-- What one check establishes of a hint. -/
structure HintChecked (system : FlatSystem p) (hint : Hint p) : Prop where
  outputs_ne_nil : hint.wires ≠ []
  outputs_nodup : hint.wires.Nodup
  outputs_internal : ∀ wire ∈ hint.wires,
    system.layout.numInputs ≤ wire ∧ wire < system.layout.numWires
  terms_inRange : ∀ term ∈ hint.terms, system.TermInRange term

theorem checkHint_eq_ok {system : FlatSystem p} {number : Nat} {hint : Hint p}
    {producers entered : Std.TreeMap Nat Nat}
    (h : system.checkHint number hint producers = .ok entered) :
    system.HintChecked hint ∧ (∀ wire ∈ hint.wires, producers[wire]? = none) ∧
      ∀ wire, entered[wire]? = if wire ∈ hint.wires then some number
        else producers[wire]? := by
  unfold checkHint at h
  split at h
  · cases h
  next hNonempty =>
  split at h
  · cases h
  next outputs hOutputs =>
  split at h
  · cases h
  next hTerms =>
  injection h with h
  subst h
  obtain ⟨hNodup, hFresh, hEntered⟩ := enterOutputs_eq_ok hOutputs
  rw [List.findSome?_eq_none_iff] at hTerms
  refine ⟨?_, fun wire hWire => (hFresh wire hWire).2.2, hEntered⟩
  exact
    { outputs_ne_nil := by simpa using hNonempty
      outputs_nodup := hNodup
      outputs_internal :=
        fun wire hWire => ⟨(hFresh wire hWire).1, (hFresh wire hWire).2.1⟩
      terms_inRange :=
        fun term hTerm => termFault?_eq_none_iff.mp (hTerms term hTerm) }

/-- The hints are checked in order, and the map of producers grows by their
outputs. -/
theorem checkHints_eq_ok {system : FlatSystem p} {number : Nat}
    {hints : List (Hint p)} {producers entered : Std.TreeMap Nat Nat}
    (h : system.checkHints number hints producers = .ok entered) :
    (∀ hint ∈ hints, system.HintChecked hint) ∧
      ∀ wire k, entered[wire]? = some k ↔ producers[wire]? = some k ∨
        ∃ i hint, hints[i]? = some hint ∧ wire ∈ hint.wires ∧
          k = number + i := by
  induction hints generalizing number producers with
  | nil =>
      injection h with h
      subst h
      simp
  | cons hint rest ih =>
      unfold checkHints at h
      split at h
      · cases h
      next grown hHint =>
      obtain ⟨hRest, hEntered⟩ := ih h
      obtain ⟨hChecked, hFresh, hGrown⟩ := checkHint_eq_ok hHint
      constructor
      · intro other hOther
        rcases List.mem_cons.mp hOther with rfl | hOther
        · exact hChecked
        · exact hRest other hOther
      · intro wire k
        rw [hEntered wire k, hGrown wire]
        constructor
        · rintro (hOwn | ⟨i, other, hOther, hWire, rfl⟩)
          · split at hOwn
            · next hWire =>
                injection hOwn with hOwn
                exact Or.inr ⟨0, hint, rfl, hWire, by omega⟩
            · exact Or.inl hOwn
          · exact Or.inr ⟨i + 1, other, hOther, hWire, by omega⟩
        · rintro (hOld | ⟨i, other, hOther, hWire, rfl⟩)
          · left
            split
            · next hWire =>
                rw [hFresh wire hWire] at hOld
                cases hOld
            · exact hOld
          · cases i with
            | zero =>
                injection hOther with hOther
                subst hOther
                left
                rw [if_pos hWire, Nat.add_zero]
            | succ i => exact Or.inr ⟨i, other, hOther, hWire, by omega⟩

theorem checkConstraints_eq_ok {system : FlatSystem p} {number : Nat}
    {cs : List Constraint} :
    system.checkConstraints number cs = .ok () ↔
      ∀ c ∈ cs, ∀ term ∈ c.terms, system.TermInRange term := by
  induction cs generalizing number with
  | nil => simp [checkConstraints]
  | cons c rest ih =>
      have hFirst : c.terms.findSome? system.termFault? = none ↔
          ∀ term ∈ c.terms, system.TermInRange term := by
        rw [List.findSome?_eq_none_iff]
        simp only [termFault?_eq_none_iff]
      rw [List.forall_mem_cons, ← hFirst]
      unfold checkConstraints
      split
      · next hFault => simp [hFault]
      · next hSound => simp [hSound, ih]

/-! ## Wires that occur -/

private theorem contains_foldl_terms (terms : List Term)
    (wires : Std.TreeSet Nat) (wire : Nat) :
    (terms.foldl (fun wires term =>
      wires.insert term.wire) wires).contains wire = true ↔
      wires.contains wire = true ∨ ∃ term ∈ terms, term.wire = wire := by
  induction terms generalizing wires with
  | nil => simp
  | cons term rest ih =>
      rw [List.foldl_cons, ih, Std.TreeSet.contains_insert]
      simp only [Bool.or_eq_true, Nat.compare_eq_eq, beq_iff_eq, List.mem_cons,
        exists_eq_or_imp]
      rw [or_comm (a := term.wire = wire), or_assoc]

theorem contains_mentioned_iff {system : FlatSystem p} {wire : Nat} :
    system.mentioned.contains wire = true ↔
      ∃ c ∈ system.constraints.toList, ∃ term ∈ c.terms, term.wire = wire := by
  have hFold : ∀ (cs : List Constraint) (wires : Std.TreeSet Nat),
      (cs.foldl (fun wires c =>
        c.terms.foldl (fun wires term => wires.insert term.wire) wires)
        wires).contains wire = true ↔
        wires.contains wire = true ∨
          ∃ c ∈ cs, ∃ term ∈ c.terms, term.wire = wire := by
    intro cs
    induction cs with
    | nil => simp
    | cons c rest ih =>
        intro wires
        rw [List.foldl_cons, ih, contains_foldl_terms]
        simp only [List.mem_cons, exists_eq_or_imp, or_assoc]
  rw [mentioned, hFold]
  simp

private theorem rejectIdle_ne_ok {reject : Nat → Nat → SystemError}
    {count first : Nat} : rejectIdle reject count first ≠ .ok () := by
  unfold rejectIdle
  split
  · exact Outcome.abandon_ne_ok
  · exact Outcome.report_ne_ok

private theorem requireMentioned_eq_ok {mentioned : Std.TreeSet Nat}
    {reject : Nat → Nat → SystemError} {wires : List Nat}
    (h : requireMentioned mentioned reject wires = .ok ()) :
    ∀ wire ∈ wires, mentioned.contains wire = true := by
  unfold requireMentioned at h
  split at h
  · next hNone =>
      intro wire hWire
      have hKept := List.filter_eq_nil_iff.mp hNone wire hWire
      simpa using hKept
  · exact absurd h rejectIdle_ne_ok

/-- Inputs are checked first, then outputs of hints, then internal wires. -/
private theorem checkMentioned_eq_ok_iff {system : FlatSystem p}
    {producers : Std.TreeMap Nat Nat} :
    system.checkMentioned producers = .ok () ↔
      requireMentioned system.mentioned .unconstrainedInputs
          (List.range' 1 (system.layout.numInputs - 1)) = .ok () ∧
        requireMentioned system.mentioned .unconstrainedHints
          producers.keys = .ok () ∧
        requireMentioned system.mentioned .unconstrainedInternal
          (List.range' system.layout.numInputs
            (system.layout.numWires - system.layout.numInputs)) = .ok () := by
  unfold checkMentioned
  simp only [bind_eq_ok]
  constructor
  · rintro ⟨⟨⟩, hInputs, ⟨⟩, hOutputs, hInternal⟩
    exact ⟨hInputs, hOutputs, hInternal⟩
  · rintro ⟨hInputs, hOutputs, hInternal⟩
    exact ⟨(), hInputs, (), hOutputs, hInternal⟩

/-- The check covers internal wires whatever their numbers are. -/
private theorem checkMentioned_internal {system : FlatSystem p}
    {producers : Std.TreeMap Nat Nat}
    (h : system.checkMentioned producers = .ok ()) {wire : Nat}
    (hLow : system.layout.numInputs ≤ wire)
    (hHigh : wire < system.layout.numWires) :
    system.mentioned.contains wire = true := by
  apply requireMentioned_eq_ok (checkMentioned_eq_ok_iff.mp h).2.2
  rw [List.mem_range'_1]
  omega

private theorem checkMentioned_eq_ok {system : FlatSystem p}
    {producers : Std.TreeMap Nat Nat}
    (h : system.checkMentioned producers = .ok ()) {wire : Nat}
    (hPos : 0 < wire) (hWire : wire < system.layout.numWires) :
    system.mentioned.contains wire = true := by
  by_cases hInput : wire < system.layout.numInputs
  · apply requireMentioned_eq_ok (checkMentioned_eq_ok_iff.mp h).1
    rw [List.mem_range'_1]
    omega
  · exact checkMentioned_internal h (Nat.le_of_not_lt hInput) hWire

end FlatSystem

namespace ValidSystem

/-- What validation guarantees. -/
structure WellFormed (system : ValidSystem p) : Prop where
  constraints_pos : 0 < system.constraints.size
  public_pos : 0 < system.layout.numPublic.toNat
  wires_bounded : system.layout.numWires < 2 ^ 63
  terms_inRange : ∀ (number : Nat) (c : Constraint),
    system.constraints[number]? = some c →
    ∀ term ∈ c.terms, system.TermInRange term
  hintTerms_inRange : ∀ (number : Nat) (hint : Hint p),
    system.hints[number]? = some hint →
    ∀ term ∈ hint.terms, system.TermInRange term
  outputs_ne_nil : ∀ (number : Nat) (hint : Hint p),
    system.hints[number]? = some hint →
    hint.wires ≠ []
  outputs_nodup : ∀ (number : Nat) (hint : Hint p),
    system.hints[number]? = some hint →
    hint.wires.Nodup
  outputs_internal : ∀ (number : Nat) (hint : Hint p),
    system.hints[number]? = some hint →
    ∀ wire ∈ hint.wires, system.layout.numInputs ≤ wire ∧
      wire < system.layout.numWires
  producers_eq : ∀ wire number : Nat, system.producers[wire]? = some number ↔
    ∃ hint, system.hints[number]? = some hint ∧ wire ∈ hint.wires
  mentioned : ∀ wire : Nat, 0 < wire → wire < system.layout.numWires →
    ∃ (number : Nat) (c : Constraint), system.constraints[number]? = some c ∧
      ∃ term ∈ c.terms, term.wire = wire

end ValidSystem

/-- A system is admitted when it passes all checks. -/
theorem FlatSystem.validate_eq_ok {system : FlatSystem p}
    {arithmetic : Arithmetic} {valid : ValidSystem p} :
    system.validate arithmetic = .ok valid ↔
      system.constraints.isEmpty = false ∧ system.layout.numPublic ≠ 0 ∧
      (arithmetic = .checked → system.layout.Fits) ∧
      exceedsMemory system.layout = false ∧
      system.checkConstraints 0 system.constraints.toList = .ok () ∧
      ∃ producers,
        system.checkHints 0 system.hints.toList ∅ = .ok producers ∧
        inputsExceedWires system.layout = false ∧
        system.checkMentioned producers = .ok () ∧
        valid = { system with producers } := by
  unfold validate
  split
  · next hEmpty => simp [hEmpty, Outcome.report_ne_ok]
  next hNonempty =>
  split
  · next hPublic => simp [hPublic, Outcome.report_ne_ok]
  next hPublic =>
  split
  · next hOverflow => simp [hOverflow, Outcome.abandon_ne_ok]
  next hSums =>
  split
  · next hMemory => simp [hMemory, Outcome.abandon_ne_ok]
  next hMemory =>
  simp only [bind_eq_ok, Outcome.ofExcept_eq_ok]
  constructor
  · rintro ⟨⟨⟩, hConstraints, producers, hHints, h⟩
    split at h
    · exact absurd h Outcome.abandon_ne_ok
    next hInputs =>
    simp only [bind_eq_ok, pure_eq_ok] at h
    obtain ⟨⟨⟩, hMentioned, rfl⟩ := h
    exact ⟨by simpa using hNonempty, hPublic,
      fun hChecked => Decidable.not_not.mp fun hFits =>
        hSums ⟨hChecked, hFits⟩,
      by simpa using hMemory, hConstraints, producers, hHints,
      by simpa using hInputs, hMentioned, rfl⟩
  · rintro ⟨-, -, -, -, hConstraints, producers, hHints, hInputs,
      hMentioned, rfl⟩
    refine ⟨(), hConstraints, producers, hHints, ?_⟩
    rw [if_neg (by simp [hInputs])]
    simp only [bind_eq_ok, pure_eq_ok]
    exact ⟨(), hMentioned, trivial⟩

/-- With checked sums, the counts of an admitted system add up to a word. -/
theorem FlatSystem.fits_of_validate {system : FlatSystem p}
    {valid : ValidSystem p} (h : system.validate = .ok valid) :
    system.layout.Fits :=
  (validate_eq_ok.mp h).2.2.1 rfl

/-- Every admitted system is the flat system, and well formed. -/
theorem FlatSystem.validate_wellFormed {system : FlatSystem p}
    {arithmetic : Arithmetic} {valid : ValidSystem p}
    (h : system.validate arithmetic = .ok valid) :
    valid.toFlatSystem = system ∧ valid.WellFormed := by
  obtain ⟨hNonempty, hPublic, -, hMemory, hConstraints, producers, hHints, -,
    hMentioned, rfl⟩ := validate_eq_ok.mp h
  refine ⟨rfl, ?_⟩
  obtain ⟨hHint, hProducers⟩ := checkHints_eq_ok hHints
  have hMemHint : ∀ {number : Nat} {hint : Hint p},
      system.hints[number]? = some hint →
      hint ∈ system.hints.toList := by
    intro number hint hGet
    exact mem_toList_iff_getElem?.mpr ⟨number, hGet⟩
  exact
    { constraints_pos := by
        show 0 < system.constraints.size
        rw [Nat.pos_iff_ne_zero, Ne, ← Array.isEmpty_iff_size_eq_zero]
        simp [hNonempty]
      public_pos := by
        show 0 < system.layout.numPublic.toNat
        rw [Nat.pos_iff_ne_zero]
        intro hZero
        exact hPublic (UInt64.toNat_inj.mp hZero)
      wires_bounded := by
        show system.layout.numWires < 2 ^ 63
        simpa [exceedsMemory] using hMemory
      terms_inRange := fun number c hGet =>
        checkConstraints_eq_ok.mp hConstraints c
          (mem_toList_iff_getElem?.mpr ⟨number, hGet⟩)
      hintTerms_inRange :=
        fun number hint hGet => (hHint hint (hMemHint hGet)).terms_inRange
      outputs_ne_nil :=
        fun number hint hGet => (hHint hint (hMemHint hGet)).outputs_ne_nil
      outputs_nodup :=
        fun number hint hGet => (hHint hint (hMemHint hGet)).outputs_nodup
      outputs_internal := fun number hint hGet =>
        (hHint hint (hMemHint hGet)).outputs_internal
      producers_eq := by
        intro wire number
        rw [hProducers wire number]
        constructor
        · rintro (hNone | ⟨i, hint, hGet, hWire, rfl⟩)
          · simp at hNone
          · rw [Nat.zero_add]
            exact ⟨hint, by simpa using hGet, hWire⟩
        · rintro ⟨hint, hGet, hWire⟩
          exact Or.inr ⟨number, hint, by simpa using hGet, hWire, by omega⟩
      mentioned := by
        intro wire hPos hWire
        obtain ⟨c, hc, hTerm⟩ :=
          contains_mentioned_iff.mp (checkMentioned_eq_ok hMentioned hPos hWire)
        obtain ⟨number, hGet⟩ := mem_toList_iff_getElem?.mp hc
        exact ⟨number, c, hGet, hTerm⟩ }

/-- Every internal wire occurs in a constraint, also the first wire of all,
which is internal when the count of inputs has wrapped around. -/
theorem FlatSystem.exists_mention_of_internal {system : FlatSystem p}
    {valid : ValidSystem p} (h : system.validate = .ok valid) {wire : Nat}
    (hLow : system.layout.numInputs ≤ wire)
    (hHigh : wire < system.layout.numWires) :
    ∃ (node : Nat) (c : Constraint), valid.constraints[node]? = some c ∧
      ∃ term ∈ c.terms, term.wire = wire := by
  obtain ⟨-, -, -, -, -, producers, -, -, hMentioned, rfl⟩ :=
    validate_eq_ok.mp h
  obtain ⟨c, hc, hTerm⟩ :=
    contains_mentioned_iff.mp (checkMentioned_internal hMentioned hLow hHigh)
  obtain ⟨node, hGet⟩ := mem_toList_iff_getElem?.mp hc
  exact ⟨node, c, hGet, hTerm⟩

/-- So does every output of a hint. -/
theorem FlatSystem.exists_mention_of_output {system : FlatSystem p}
    {valid : ValidSystem p} (h : system.validate = .ok valid)
    {number wire : Nat} {hint : Hint p}
    (hGet : valid.hints[number]? = some hint) (hWire : wire ∈ hint.wires) :
    ∃ (node : Nat) (c : Constraint), valid.constraints[node]? = some c ∧
      ∃ term ∈ c.terms, term.wire = wire := by
  obtain ⟨rfl, hSystem⟩ := validate_wellFormed h
  obtain ⟨hLow, hHigh⟩ := hSystem.outputs_internal number hint hGet wire hWire
  exact exists_mention_of_internal h hLow hHigh

namespace ValidSystem.WellFormed

variable {system : ValidSystem p} (h : system.WellFormed)
include h

/-- The producer of a wire is the hint that lists it among its outputs. -/
theorem hintFor?_eq_some_iff {wire number : Nat} {hint : Hint p} :
    system.hintFor? wire = some (number, hint) ↔
      system.hints[number]? = some hint ∧ wire ∈ hint.wires := by
  unfold hintFor?
  simp only [Option.bind_eq_bind, Option.bind_eq_some_iff, Option.pure_def,
    Option.some.injEq, Prod.mk.injEq]
  constructor
  · rintro ⟨number', hProducer, hint', hGet, rfl, rfl⟩
    obtain ⟨hint'', hGet', hWire⟩ := (h.producers_eq wire number').mp hProducer
    rw [hGet] at hGet'
    injection hGet' with hSame
    subst hSame
    exact ⟨hGet, hWire⟩
  · rintro ⟨hGet, hWire⟩
    exact ⟨number, (h.producers_eq wire number).mpr ⟨hint, hGet, hWire⟩, hint,
      hGet, rfl, rfl⟩

/-- A wire is an output of one hint only. -/
theorem producer_unique {wire number number' : Nat} {hint hint' : Hint p}
    (hGet : system.hints[number]? = some hint) (hWire : wire ∈ hint.wires)
    (hGet' : system.hints[number']? = some hint')
    (hWire' : wire ∈ hint'.wires) :
    number = number' ∧ hint = hint' := by
  have hFirst := h.hintFor?_eq_some_iff.mpr ⟨hGet, hWire⟩
  have hSecond := h.hintFor?_eq_some_iff.mpr ⟨hGet', hWire'⟩
  rw [hFirst] at hSecond
  injection hSecond with hSecond
  exact Prod.mk.inj hSecond

theorem firstWire_mem {number : Nat} {hint : Hint p}
    (hGet : system.hints[number]? = some hint) :
    hint.firstWire ∈ hint.wires := by
  have hNonempty := h.outputs_ne_nil number hint hGet
  unfold Hint.firstWire
  cases hWires : hint.wires with
  | nil => exact absurd hWires hNonempty
  | cons first rest => exact List.mem_cons_self

end ValidSystem.WellFormed

/-- The modulus in which small systems are written down. -/
instance (priority := high) modulus_seventeen : Modulus 17 := ⟨by decide⟩

end RankOne
