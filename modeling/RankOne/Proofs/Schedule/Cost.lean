import Mathlib.Algebra.BigOperators.Group.Finset.Basic
import Mathlib.Algebra.GroupWithZero.Nat
import RankOne.Proofs.Schedule.Resolution

/-!
# What a constraint is charged for

The resolution pass charges a constraint while it goes through its terms, in an
order that depends on them. When it leaves the constraint, the charges depend on
nothing but what the constraint resolves: one for each of its terms, a fixed
weight for each plain wire, and the weight of each hint. The constraint waits
for exactly those other constraints that resolve a wire which it reads, itself
or through a hint that it resolves.
-/

namespace RankOne

variable {p : Nat}

/-! ## What a constraint resolves and reads -/

namespace ValidSystem

variable (system : ValidSystem p) (resolver : Std.TreeMap Nat Nat) (node : Nat)

/-- The hints that constraint `node` resolves. -/
def hintsOf : Finset Nat :=
  (Finset.range system.hints.size).filter fun number =>
    (system.hints[number]?).any fun hint =>
      resolver[hint.firstWire]? = some node

/-- The wires for which constraint `node` is to be solved. -/
def wiresOf : Finset Nat :=
  (Finset.range system.layout.numWires).filter fun wire =>
    system.SolvesFor resolver node wire

/-- The weight of a hint. -/
def hintWeight (number : Nat) : Nat :=
  ((system.hints[number]?).map fun hint =>
    (hint.inputs.length + hint.wires.length) * NodeCost.hintWeight).getD 0

/-- Whether the caller supplies the function of a hint. -/
def isCustomHint (number : Nat) : Bool :=
  (system.hints[number]?).any fun hint => hint.kind.isCustom

/-- Constraint `node` reads a wire, itself or through a hint that it
resolves. -/
def ReadsWire (c : Constraint) (wire : Nat) : Prop :=
  (∃ term ∈ c.terms, term.wire = wire) ∨
    ∃ (number : Nat) (hint : Hint p), system.hints[number]? = some hint ∧
      resolver[hint.firstWire]? = some node ∧
        ∃ term ∈ hint.terms, term.wire = wire

/-- Constraint `node` reads a wire that another constraint resolves. -/
def WaitsFor (c : Constraint) (other : Nat) : Prop :=
  other ≠ node ∧ ∃ wire, system.ReadsWire resolver node c wire ∧
    resolver[wire]? = some other

variable {system resolver node}

theorem mem_hintsOf {number : Nat} : number ∈ system.hintsOf resolver node ↔
    ∃ hint, system.hints[number]? = some hint ∧
      resolver[hint.firstWire]? = some node := by
  unfold hintsOf
  simp only [Finset.mem_filter, Finset.mem_range, Option.any_eq_true,
    decide_eq_true_eq]
  constructor
  · exact fun h => h.2
  · rintro ⟨hint, hGet, hOwner⟩
    exact ⟨(Array.getElem?_eq_some_iff.mp hGet).1, hint, hGet, hOwner⟩

theorem mem_wiresOf {wire : Nat} : wire ∈ system.wiresOf resolver node ↔
    wire < system.layout.numWires ∧ system.SolvesFor resolver node wire := by
  unfold wiresOf
  rw [Finset.mem_filter, Finset.mem_range]

end ValidSystem

/-! ## Charging -/

namespace ResolutionState

/-- The charges add up while the pass is at constraint `node`, has handled the
terms `done`, and has charged for the hints `waiting` that it has yet to
resolve. -/
structure Accounted (system : ValidSystem p) (node : Nat) (done : List Term)
    (waiting : List Nat) (state : ResolutionState) : Prop where
  weight : state.cost.weight = done.length +
    ∑ number ∈ system.hintsOf state.resolver node, system.hintWeight number +
    (waiting.map system.hintWeight).sum +
    NodeCost.solveWeight * (system.wiresOf state.resolver node).card
  custom : state.cost.custom = true ↔ ∃ number,
    (number ∈ system.hintsOf state.resolver node ∨ number ∈ waiting) ∧
      system.isCustomHint number = true
  dependency : ∀ other ∈ state.cost.dependencies, other ≠ node ∧
    ∃ wire : Nat, state.resolver[wire]? = some other ∧
      ((∃ term ∈ done, term.wire = wire) ∨
        ∃ (number : Nat) (hint : Hint p), system.hints[number]? = some hint ∧
          (number ∈ system.hintsOf state.resolver node ∨ number ∈ waiting) ∧
            ∃ term ∈ hint.terms, term.wire = wire)
  unresolved : ∀ number ∈ waiting, ∀ hint, system.hints[number]? = some hint →
    ∀ wire ∈ hint.wires, state.resolver[wire]? = none

namespace Accounted

variable {system : ValidSystem p} {node : Nat} {done : List Term}
  {waiting : List Nat} {state : ResolutionState}
  (h : state.Accounted system node done waiting)
include h

/-- Handling a term starts with a charge of one. -/
private theorem term (term : Term) :
    ({ state with cost := state.cost.charge 1 } :
      ResolutionState).Accounted system node (done ++ [term]) waiting where
  weight := by
    show state.cost.weight + 1 = _
    rw [h.weight, List.length_append, List.length_singleton]
    dsimp only
    omega
  custom := h.custom
  dependency := by
    intro other hOther
    obtain ⟨hDifferent, wire, hOwner, hRead⟩ := h.dependency other hOther
    refine ⟨hDifferent, wire, hOwner, hRead.imp_left ?_⟩
    rintro ⟨earlier, hEarlier, hWire⟩
    exact ⟨earlier, List.mem_append_left _ hEarlier, hWire⟩
  unresolved := h.unresolved

/-- Reading a resolved wire makes its resolver a dependency, unless it is the
constraint itself. -/
private theorem read {wire owner : Nat}
    (hOwner : state.resolver[wire]? = some owner)
    (hRead : (∃ term ∈ done, term.wire = wire) ∨
      ∃ (number : Nat) (hint : Hint p), system.hints[number]? = some hint ∧
      (number ∈ system.hintsOf state.resolver node ∨ number ∈ waiting) ∧
      ∃ term ∈ hint.terms, term.wire = wire) :
    (state.read node owner).Accounted system node done waiting := by
  unfold ResolutionState.read
  split
  · exact h
  · next hOther =>
      exact
        { h with
          dependency := by
            intro other hMem
            rcases mem_insertDecreasing.mp hMem with rfl | hMem
            · exact ⟨hOther, wire, hOwner, hRead⟩
            · exact h.dependency other hMem }

/-- A hint is charged for before its terms are handled, and waits meanwhile. -/
private theorem chargeHint {number : Nat} {hint : Hint p}
    (hGet : system.hints[number]? = some hint)
    (hOpen : ∀ wire ∈ hint.wires, state.resolver[wire]? = none) :
    ({ state with cost := state.cost.chargeHint hint } :
      ResolutionState).Accounted system node done (number :: waiting) where
  weight := by
    show state.cost.weight + _ = _
    have hWeight : system.hintWeight number =
        (hint.inputs.length + hint.wires.length) * NodeCost.hintWeight := by
      unfold ValidSystem.hintWeight
      rw [hGet]
      rfl
    rw [h.weight, List.map_cons, List.sum_cons, hWeight]
    dsimp only
    omega
  custom := by
    have hCustom : system.isCustomHint number = hint.kind.isCustom := by
      unfold ValidSystem.isCustomHint
      rw [hGet]
      rfl
    show (state.cost.custom || hint.kind.isCustom) = true ↔ _
    rw [Bool.or_eq_true, h.custom, ← hCustom]
    constructor
    · rintro (⟨other, hOther, hIs⟩ | hIs)
      · exact ⟨other, hOther.imp_right (List.mem_cons_of_mem _), hIs⟩
      · exact ⟨number, Or.inr List.mem_cons_self, hIs⟩
    · rintro ⟨other, hResolved | hMem, hIs⟩
      · exact Or.inl ⟨other, Or.inl hResolved, hIs⟩
      · rcases List.mem_cons.mp hMem with rfl | hMem
        · exact Or.inr hIs
        · exact Or.inl ⟨other, Or.inr hMem, hIs⟩
  dependency := by
    intro other hOther
    obtain ⟨hDifferent, wire, hOwner, hRead⟩ := h.dependency other hOther
    refine ⟨hDifferent, wire, hOwner, hRead.imp_right ?_⟩
    rintro ⟨reader, readerHint, hReader, hAt, hTerm⟩
    exact ⟨reader, readerHint, hReader,
      hAt.imp_right (List.mem_cons_of_mem _), hTerm⟩
  unresolved := by
    intro other hMem otherHint hOther
    rcases List.mem_cons.mp hMem with rfl | hMem
    · rw [hGet] at hOther
      injection hOther with hSame
      exact hSame ▸ hOpen
    · exact h.unresolved other hMem otherHint hOther

end Accounted

section Resolve

variable {system : ValidSystem p} {node : Nat} {state : ResolutionState}
  (hSystem : system.WellFormed)
include hSystem

/-- Resolving the outputs of a hint adds it to the hints of the constraint. -/
private theorem hintsOf_resolve {number : Nat} {hint : Hint p}
    (hGet : system.hints[number]? = some hint) :
    system.hintsOf (state.resolve node hint.wires).resolver node =
      insert number (system.hintsOf state.resolver node) := by
  ext other
  simp only [ValidSystem.mem_hintsOf, Finset.mem_insert, resolver_resolve]
  constructor
  · rintro ⟨otherHint, hOther, hOwner⟩
    split at hOwner
    · next hMem =>
        exact Or.inl (hSystem.producer_unique hOther
          (hSystem.firstWire_mem hOther) hGet hMem).1
    · exact Or.inr ⟨otherHint, hOther, hOwner⟩
  · rintro (rfl | ⟨otherHint, hOther, hOwner⟩)
    · exact ⟨hint, hGet, by rw [if_pos (hSystem.firstWire_mem hGet)]⟩
    · refine ⟨otherHint, hOther, ?_⟩
      split
      · rfl
      · exact hOwner

/-- It adds nothing to its plain wires. -/
private theorem wiresOf_resolve {number : Nat} {hint : Hint p}
    (hGet : system.hints[number]? = some hint) :
    system.wiresOf (state.resolve node hint.wires).resolver node =
      system.wiresOf state.resolver node := by
  ext wire
  have hOutput : wire ∈ hint.wires → system.hintFor? wire ≠ none := by
    intro hWire hPlain
    rw [hSystem.hintFor?_eq_some_iff.mpr ⟨hGet, hWire⟩] at hPlain
    cases hPlain
  simp only [ValidSystem.mem_wiresOf, ValidSystem.SolvesFor, resolver_resolve]
  by_cases hWire : wire ∈ hint.wires
  · simp [hOutput hWire]
  · rw [if_neg hWire]

/-- Resolving a plain wire adds no hint. -/
private theorem hintsOf_resolve_plain {wire : Nat}
    (hPlain : system.hintFor? wire = none) :
    system.hintsOf (state.resolve node [wire]).resolver node =
      system.hintsOf state.resolver node := by
  ext number
  simp only [ValidSystem.mem_hintsOf, resolver_resolve, List.mem_singleton]
  constructor
  · rintro ⟨hint, hGet, hOwner⟩
    refine ⟨hint, hGet, ?_⟩
    split at hOwner
    · next hSame =>
        have hProducer :=
          hSystem.hintFor?_eq_some_iff.mpr ⟨hGet,
            hSame ▸ hSystem.firstWire_mem hGet⟩
        rw [hPlain] at hProducer
        cases hProducer
    · exact hOwner
  · rintro ⟨hint, hGet, hOwner⟩
    refine ⟨hint, hGet, ?_⟩
    split
    · rfl
    · exact hOwner

omit hSystem in
/-- It adds the wire to the plain wires of the constraint. -/
private theorem wiresOf_resolve_plain {wire : Nat}
    (hPlain : system.hintFor? wire = none)
    (hWire : wire < system.layout.numWires) :
    system.wiresOf (state.resolve node [wire]).resolver node =
      insert wire (system.wiresOf state.resolver node) := by
  ext other
  simp only [ValidSystem.mem_wiresOf, ValidSystem.SolvesFor, resolver_resolve,
    List.mem_singleton, Finset.mem_insert]
  by_cases hSame : other = wire
  · subst hSame
    simp [hWire, hPlain]
  · simp [hSame]

end Resolve

namespace Accounted

variable {system : ValidSystem p} {node : Nat} {done : List Term}
  {waiting : List Nat} {state : ResolutionState} (hSystem : system.WellFormed)
include hSystem

/-- A hint that has waited is resolved. -/
private theorem resolveHint {number : Nat} {hint : Hint p}
    (h : state.Accounted system node done (number :: waiting))
    (hNew : number ∉ waiting) (hGet : system.hints[number]? = some hint) :
    (state.resolve node hint.wires).Accounted system node done waiting := by
  have hOpen := h.unresolved number List.mem_cons_self hint hGet
  have hFresh : number ∉ system.hintsOf state.resolver node := by
    intro hMem
    obtain ⟨hint', hGet', hOwner⟩ := ValidSystem.mem_hintsOf.mp hMem
    rw [hGet] at hGet'
    injection hGet' with hSame
    subst hSame
    rw [hOpen _ (hSystem.firstWire_mem hGet)] at hOwner
    cases hOwner
  have hActive : ∀ other : Nat,
      other ∈ system.hintsOf (state.resolve node hint.wires).resolver node ∨
        other ∈ waiting ↔
        other ∈ system.hintsOf state.resolver node ∨
          other ∈ number :: waiting := by
    intro other
    rw [hintsOf_resolve hSystem hGet, Finset.mem_insert, List.mem_cons]
    tauto
  exact
    { weight := by
        rw [hintsOf_resolve hSystem hGet, wiresOf_resolve hSystem hGet,
          Finset.sum_insert hFresh]
        show state.cost.weight = _
        rw [h.weight, List.map_cons, List.sum_cons]
        omega
      custom := by
        simp only [hActive]
        exact h.custom
      dependency := by
        intro other hOther
        obtain ⟨hDifferent, wire, hOwner, hRead⟩ := h.dependency other hOther
        refine ⟨hDifferent, wire, ?_, ?_⟩
        · rw [resolver_resolve, if_neg]
          · exact hOwner
          · intro hWire
            rw [hOpen wire hWire] at hOwner
            cases hOwner
        · simp only [hActive]
          exact hRead
      unresolved := by
        intro other hMem otherHint hOther wire hWire
        rw [resolver_resolve, if_neg]
        · exact h.unresolved other
            (List.mem_cons_of_mem _ hMem) otherHint hOther wire hWire
        · intro hOutput
          have hSame := (hSystem.producer_unique hOther hWire hGet hOutput).1
          exact hNew (hSame ▸ hMem) }

/-- A plain wire is charged for and resolved. -/
private theorem resolvePlain {wire : Nat}
    (h : state.Accounted system node done [])
    (hPlain : system.hintFor? wire = none)
    (hWire : wire < system.layout.numWires)
    (hNone : state.resolver[wire]? = none) :
    (({ state with cost := state.cost.charge NodeCost.solveWeight } :
      ResolutionState).resolve node [wire]).Accounted system node done [] where
  weight := by
    have hFresh : wire ∉ system.wiresOf state.resolver node := by
      intro hMem
      have hOwner := (ValidSystem.mem_wiresOf.mp hMem).2.1
      rw [hNone] at hOwner
      cases hOwner
    rw [hintsOf_resolve_plain hSystem hPlain,
      wiresOf_resolve_plain hPlain hWire, Finset.card_insert_of_notMem hFresh]
    show state.cost.weight + _ = _
    rw [h.weight, Nat.mul_succ, ← Nat.add_assoc]
  custom := by
    rw [hintsOf_resolve_plain hSystem hPlain]
    exact h.custom
  dependency := by
    intro other hOther
    obtain ⟨hDifferent, read, hOwner, hRead⟩ := h.dependency other hOther
    refine ⟨hDifferent, read, ?_, ?_⟩
    · rw [resolver_resolve, if_neg]
      · exact hOwner
      · intro hSame
        rw [List.mem_singleton.mp hSame, hNone] at hOwner
        cases hOwner
    · rw [hintsOf_resolve_plain hSystem hPlain]
      exact hRead
  unresolved := by simp

end Accounted

end ResolutionState

/-! ## The pass -/

namespace ValidSystem

open ResolutionState

variable {system : ValidSystem p} {node : Nat} {done : List Term}
  {state state' : ResolutionState}

/-- Resolving a hint keeps the charges adding up. -/
private theorem resolveHint_accounted (hSystem : system.WellFormed)
    {levels : Nat} {pending : List Nat} {number : Nat} {hint : Hint p}
    (hGet : system.hints[number]? = some hint)
    (hOpen : ∀ wire ∈ hint.wires, state.resolver[wire]? = none)
    (hState : state.Consistent system node)
    (hAccounted : state.Accounted system node done pending)
    (h : system.resolveHint node levels pending number hint state =
      .ok state') :
    state'.Accounted system node done pending := by
  induction levels generalizing pending number hint state state' with
  | zero =>
      unfold resolveHint at h
      cases h
  | succ levels ih =>
      obtain ⟨hNew, settled, hFold, rfl⟩ := resolveHint_eq_ok h
      obtain ⟨-, hSettled⟩ := foldlM_ok_invariant
        (fun current => current.Consistent system node ∧
          current.Accounted system node done (number :: pending))
        hFold ⟨hState.charged (state.cost.chargeHint hint) rfl,
          hAccounted.chargeHint hGet hOpen⟩ (by
          rintro term hTerm current next ⟨hCurrent, hCharges⟩ hNext
          rcases resolveHintTerm_eq_ok hNext
            with ⟨-, rfl⟩ | ⟨owner, hOwner, rfl⟩ |
            ⟨source, sourceHint, hNone, hProducer, hNext⟩
          · exact ⟨hCurrent, hCharges⟩
          · exact ⟨(hCurrent.read hOwner).1, hCharges.read hOwner
              (Or.inr ⟨number, hint, hGet, Or.inr List.mem_cons_self, term,
                hTerm, rfl⟩)⟩
          · obtain ⟨hSource, hWire⟩ := hSystem.hintFor?_eq_some_iff.mp hProducer
            have hSourceOpen := hCurrent.open_outputs hSource hWire hNone
            exact ⟨(resolveHint_sound hSystem hSource hSourceOpen
              hCurrent hNext).1,
              ih hSource hSourceOpen hCurrent hCharges hNext⟩)
      exact Accounted.resolveHint hSystem hSettled hNew hGet

/-- So does handling a term of the constraint. -/
private theorem resolveTerm_accounted (hSystem : system.WellFormed)
    {term : Term} (hTerm : system.TermInRange term)
    (hState : state.Consistent system node)
    (hAccounted : state.Accounted system node done [])
    (h : system.resolveTerm node state term = .ok state') :
    state'.Accounted system node (done ++ [term]) [] := by
  have hCharged := hState.charged (state.cost.charge 1) rfl
  have hStart := hAccounted.term term
  rcases resolveTerm_eq_ok h with ⟨-, rfl⟩ | ⟨owner, hOwner, rfl⟩ |
    ⟨number, hint, hNone, hProducer, h⟩ | ⟨-, hNone, hPlain, rfl⟩
  · exact hStart
  · exact hStart.read hOwner (Or.inl ⟨term, by simp, rfl⟩)
  · obtain ⟨hGet, hWire⟩ := hSystem.hintFor?_eq_some_iff.mp hProducer
    exact resolveHint_accounted hSystem hGet
      (hCharged.open_outputs hGet hWire hNone) hCharged hStart h
  · exact Accounted.resolvePlain hSystem hStart hPlain hTerm.1 hNone

private theorem resolveTerms_accounted (hSystem : system.WellFormed)
    {terms : List Term} (hTerms : ∀ term ∈ terms, system.TermInRange term)
    (hState : state.Consistent system node)
    (hAccounted : state.Accounted system node done [])
    (h : terms.foldlM (system.resolveTerm node) state = .ok state') :
    state'.Accounted system node (done ++ terms) [] := by
  induction terms generalizing state done with
  | nil =>
      rw [List.foldlM_nil, pure_eq_ok] at h
      subst h
      rwa [List.append_nil]
  | cons term rest ih =>
      rw [List.foldlM_cons, bind_eq_ok] at h
      obtain ⟨next, hFirst, hRest⟩ := h
      have hTerm := hTerms term List.mem_cons_self
      have hEnd :=
        ih (fun other hOther => hTerms other (List.mem_cons_of_mem _ hOther))
          (resolveTerm_sound hSystem hTerm hState hFirst).1
          (resolveTerm_accounted hSystem hTerm hState hAccounted hFirst) hRest
      rwa [List.append_assoc, List.singleton_append] at hEnd

/-- A constraint starts with no charges, since earlier constraints resolve in
their own names. -/
private theorem accounted_start {resolver : Std.TreeMap Nat Nat}
    (h : ResolverSound system node resolver) :
    ResolutionState.Accounted system node [] [] ⟨resolver, {}⟩ := by
  have hOther : ∀ wire : Nat, resolver[wire]? ≠ some node := by
    intro wire hOwner
    have hBound := (h.bounded wire node hOwner).1
    omega
  have hHints : system.hintsOf resolver node = ∅ := by
    ext number
    simp [mem_hintsOf, hOther]
  have hWires : system.wiresOf resolver node = ∅ := by
    ext wire
    simp [mem_wiresOf, SolvesFor, hOther]
  exact
    { weight := by simp [hHints, hWires]
      custom := by simp [hHints]
      dependency := by simp
      unresolved := by simp }

end ValidSystem

/-- What the cost of constraint `node` is, when the pass is over. -/
structure NodeCharged (system : ValidSystem p) (resolver : Std.TreeMap Nat Nat)
    (node : Nat) (c : Constraint) (cost : NodeCost) : Prop where
  weight : cost.weight = c.terms.length +
    ∑ number ∈ system.hintsOf resolver node, system.hintWeight number +
    NodeCost.solveWeight * (system.wiresOf resolver node).card
  custom : cost.custom = true ↔
    ∃ number ∈ system.hintsOf resolver node, system.isCustomHint number = true
  dependencies : ∀ other, other ∈ cost.dependencies ↔
    system.WaitsFor resolver node c other

namespace ValidSystem

variable {system : ValidSystem p}

/-- When a pass has ended well, every constraint has been charged for what it
resolves, and depends on the constraints for which it waits. -/
theorem resolution_charged (hSystem : system.WellFormed)
    {resolution : Resolution} (h : system.resolution = .ok resolution)
    {node : Nat} {c : Constraint} {cost : NodeCost}
    (hGet : system.constraints[node]? = some c)
    (hCost : resolution.costs[node]? = some cost) :
    NodeCharged system resolution.resolver node c cost := by
  obtain ⟨-, hSound, hNodes⟩ := resolution_passed hSystem h
  obtain ⟨before, state, hPassed, rfl⟩ := hNodes node c cost hGet hCost
  have hResolved :=
    hPassed.nodeResolved hSystem (hSystem.terms_inRange node c hGet)
  have hAccounted := resolveTerms_accounted hSystem
    (hSystem.terms_inRange node c hGet) (consistent_start hPassed.start)
    (accounted_start hPassed.start) hPassed.run
  rw [List.nil_append] at hAccounted
  have hHints : system.hintsOf resolution.resolver node =
      system.hintsOf state.resolver node := by
    ext number
    simp only [mem_hintsOf, hPassed.own_iff]
  have hWires : system.wiresOf resolution.resolver node =
      system.wiresOf state.resolver node := by
    ext wire
    simp only [mem_wiresOf, SolvesFor, hPassed.own_iff]
  exact
    { weight := by
        rw [hHints, hWires, hAccounted.weight, List.map_nil, List.sum_nil,
          Nat.add_zero]
      custom := by
        rw [hHints, hAccounted.custom]
        simp
      dependencies := by
        intro other
        constructor
        · intro hOther
          obtain ⟨hDifferent, wire, hOwner, hRead⟩ :=
            hAccounted.dependency other hOther
          refine ⟨hDifferent, wire, hRead.imp_right ?_,
            hPassed.keeps wire other hOwner⟩
          rintro ⟨number, hint, hHint, hAt, hTerm⟩
          have hMem := hAt.resolve_right (by simp)
          rw [← hHints, mem_hintsOf] at hMem
          obtain ⟨hint', hHint', hResolves⟩ := hMem
          rw [hHint] at hHint'
          injection hHint' with hSame
          exact ⟨number, hint, hHint, hSame ▸ hResolves, hTerm⟩
        · rintro ⟨hDifferent, wire, hRead, hOwner⟩
          have hSettled :
              SettledFor system resolution.resolver state.cost.dependencies node
                wire := by
            rcases hRead with ⟨term, hTerm, rfl⟩ |
              ⟨number, hint, hHint, hResolves, term, hTerm, rfl⟩
            · exact hResolved.settled term hTerm
            · exact hResolved.hintSettled number hint hHint hint.firstWire
                (hSystem.firstWire_mem hHint) hResolves term hTerm
          rcases hSettled with hInput | ⟨owner, hOwner', hAt⟩
          · have hLow := (hSound.bounded wire other hOwner).2.1
            omega
          · rw [hOwner] at hOwner'
            injection hOwner' with hSame
            subst hSame
            exact hAt.resolve_left hDifferent }

end ValidSystem

end RankOne
