import Mathlib.Logic.Relation
import RankOne.Proofs.Constraint.Validation
import RankOne.Schedule.Resolution

/-!
# What the resolution pass establishes

The pass gives every wire that it meets one resolving constraint. All outputs of
a hint share theirs, and whatever a constraint reads, itself or through the
hints it resolves, is an input, is resolved by the constraint itself, or is
resolved by a constraint it depends on. What a constraint resolves can be drawn
from its own terms: a plain wire that it mentions, or an output of a hint from
which a chain of reading hints leads to a wire that it mentions.

A pass that ends well has met no hints that read each other in a circle.
-/

namespace RankOne

variable {p : Nat}

/-! ## Decreasing lists -/

theorem mem_insertDecreasing {n m : Nat} {xs : List Nat} :
    m ∈ insertDecreasing n xs ↔ m = n ∨ m ∈ xs := by
  induction xs with
  | nil => simp [insertDecreasing]
  | cons first rest ih =>
      unfold insertDecreasing
      split
      · simp
      · split
        · next hSame =>
            subst hSame
            simp
        · rw [List.mem_cons, ih, List.mem_cons]
          constructor
          · rintro (h | h | h)
            · exact Or.inr (Or.inl h)
            · exact Or.inl h
            · exact Or.inr (Or.inr h)
          · rintro (h | h | h)
            · exact Or.inr (Or.inl h)
            · exact Or.inl h
            · exact Or.inr (Or.inr h)

private theorem pairwise_insertDecreasing {n : Nat} {xs : List Nat}
    (h : xs.Pairwise (· > ·)) :
    (insertDecreasing n xs).Pairwise (· > ·) := by
  induction xs with
  | nil => simp [insertDecreasing]
  | cons first rest ih =>
      obtain ⟨hFirst, hRest⟩ := List.pairwise_cons.mp h
      unfold insertDecreasing
      split
      · next hLess =>
          refine List.pairwise_cons.mpr ⟨?_, h⟩
          intro m hm
          rcases List.mem_cons.mp hm with rfl | hm
          · exact hLess
          · exact Nat.lt_trans (hFirst m hm) hLess
      · split
        · exact h
        · refine List.pairwise_cons.mpr ⟨?_, ih hRest⟩
          intro m hm
          rcases mem_insertDecreasing.mp hm with rfl | hm
          · omega
          · exact hFirst m hm

namespace ValidSystem

/-- The hint `reader` reads an output of the hint `source`. -/
def HintReads (system : ValidSystem p) (source reader : Nat) : Prop :=
  ∃ hint sourceHint, system.hints[reader]? = some hint ∧
    ∃ term ∈ hint.terms, system.hintFor? term.wire = some (source, sourceHint)

/-- A wire is an output of a hint from which a chain of reading hints leads to
the hint `target`. -/
def OutputAbove (system : ValidSystem p) (target wire : Nat) : Prop :=
  ∃ number hint, system.hints[number]? = some hint ∧ wire ∈ hint.wires ∧
    Relation.ReflTransGen system.HintReads number target

/-- A constraint brings a wire in: it mentions the wire, which no hint produces,
or a chain of reading hints leads from the producer of the wire to the producer
of a wire it mentions. -/
def Draws (system : ValidSystem p) (term : Term) (wire : Nat) : Prop :=
  (system.hintFor? wire = none ∧ wire = term.wire) ∨
    ∃ number hint, system.hintFor? term.wire = some (number, hint) ∧
      system.OutputAbove number wire

/-- Constraint `node` is to be solved for a wire: it resolves the wire, and no
hint produces it. -/
def SolvesFor (system : ValidSystem p) (resolver : Std.TreeMap Nat Nat)
    (node wire : Nat) : Prop :=
  resolver[wire]? = some node ∧ system.hintFor? wire = none

instance (system : ValidSystem p) (resolver : Std.TreeMap Nat Nat)
    (node wire : Nat) : Decidable (system.SolvesFor resolver node wire) :=
  inferInstanceAs (Decidable (_ ∧ _))

/-- Constraint `node` runs a hint that reads a wire for which the constraint is
to be solved. -/
def Starves (system : ValidSystem p) (resolver : Std.TreeMap Nat Nat)
    (node wire : Nat) : Prop :=
  system.SolvesFor resolver node wire ∧
    ∃ (number : Nat) (hint : Hint p), system.hints[number]? = some hint ∧
      resolver[hint.firstWire]? = some node ∧
        ∃ term ∈ hint.terms, term.wire = wire

end ValidSystem

theorem not_rel_of_acc {α : Type} {r : α → α → Prop} {x : α} (h : Acc r x) :
    ¬ r x x := by
  induction h with
  | intro x _ ih => exact fun hLoop => ih x hLoop hLoop

namespace ValidSystem

/-- The hints that wait while hint `number` is gone into: each reads it through
a chain of hints. -/
structure Waiting (system : ValidSystem p) (number : Nat) (pending : List Nat) :
    Prop where
  nodup : pending.Nodup
  bounded : ∀ reader ∈ pending, reader < system.hints.size
  reads : ∀ reader ∈ pending, Relation.TransGen system.HintReads number reader

namespace Waiting

variable {system : ValidSystem p} {number : Nat} {pending : List Nat}

theorem start : system.Waiting number [] where
  nodup := List.nodup_nil
  bounded := by simp
  reads := by simp

theorem length_le (h : system.Waiting number pending) :
    pending.length ≤ system.hints.size := by
  have hSubset : pending ⊆ List.range system.hints.size :=
    fun reader hReader => List.mem_range.mpr (h.bounded reader hReader)
  have hLength := h.nodup.length_le_of_subset hSubset
  rwa [List.length_range] at hLength

/-- A hint that does not read its own outputs does not wait for itself. -/
theorem notMem (h : system.Waiting number pending)
    (hAcc : Acc system.HintReads number) :
    number ∉ pending :=
  fun hMem => not_rel_of_acc hAcc.transGen (h.reads number hMem)

/-- Going into a hint that hint `number` reads makes hint `number` wait. -/
theorem push (h : system.Waiting number pending) (hNew : number ∉ pending)
    (hNumber : number < system.hints.size) {source : Nat}
    (hReads : system.HintReads source number) :
    system.Waiting source (number :: pending) where
  nodup := List.nodup_cons.mpr ⟨hNew, h.nodup⟩
  bounded := by
    intro reader hReader
    rcases List.mem_cons.mp hReader with rfl | hReader
    · exact hNumber
    · exact h.bounded reader hReader
  reads := by
    intro reader hReader
    rcases List.mem_cons.mp hReader with rfl | hReader
    · exact Relation.TransGen.single hReads
    · exact Relation.TransGen.head hReads (h.reads reader hReader)

end Waiting

end ValidSystem

/-- A wire that is at hand for constraint `node`: an input, or resolved by the
constraint itself or by one of its dependencies. -/
def SettledFor (system : ValidSystem p) (resolver : Std.TreeMap Nat Nat)
    (dependencies : List Nat) (node wire : Nat) : Prop :=
  wire < system.layout.numInputs ∨
    ∃ owner, resolver[wire]? = some owner ∧
      (owner = node ∨ owner ∈ dependencies)

/-- What holds of the resolved wires once the constraints below `bound` have
been gone through. -/
structure ResolverSound (system : ValidSystem p) (bound : Nat)
    (resolver : Std.TreeMap Nat Nat) : Prop where
  bounded : ∀ wire owner : Nat, resolver[wire]? = some owner →
    owner < bound ∧ system.layout.numInputs ≤ wire ∧
      wire < system.layout.numWires
  whole : ∀ (number : Nat) (hint : Hint p), system.hints[number]? = some hint →
    ∀ wire ∈ hint.wires, ∀ wire' ∈ hint.wires,
      resolver[wire]? = resolver[wire']?
  reads : ∀ (number : Nat) (hint : Hint p), system.hints[number]? = some hint →
    ∀ wire ∈ hint.wires, ∀ owner : Nat, resolver[wire]? = some owner →
      ∀ term ∈ hint.terms,
      term.wire < system.layout.numInputs ∨
        ∃ earlier ≤ owner, resolver[term.wire]? = some earlier
  accessible : ∀ (number : Nat) (hint : Hint p),
    system.hints[number]? = some hint →
    ∀ wire ∈ hint.wires, ∀ owner, resolver[wire]? = some owner →
      Acc system.HintReads number

namespace ResolverSound

variable {system : ValidSystem p} {bound : Nat} {resolver : Std.TreeMap Nat Nat}
  (h : ResolverSound system bound resolver) (hSystem : system.WellFormed)
include h hSystem

/-- Hints are resolved no earlier than the hints above them. -/
theorem owner_le_of_above {number target : Nat} {hint targetHint : Hint p}
    (hGet : system.hints[number]? = some hint)
    (hTarget : system.hints[target]? = some targetHint)
    (hAbove : Relation.ReflTransGen system.HintReads number target)
    {wire targetWire owner : Nat} (hWire : wire ∈ hint.wires)
    (hTargetWire : targetWire ∈ targetHint.wires)
    (hOwner : resolver[targetWire]? = some owner) :
    ∃ earlier ≤ owner, resolver[wire]? = some earlier := by
  induction hAbove generalizing targetHint targetWire owner with
  | refl =>
      rw [hGet] at hTarget
      injection hTarget with hSame
      subst hSame
      refine ⟨owner, Nat.le_refl _, ?_⟩
      rw [h.whole number hint hGet wire hWire targetWire hTargetWire]
      exact hOwner
  | tail _ hReads ih =>
      obtain ⟨reader, sourceHint, hReader, term, hTerm, hProducer⟩ := hReads
      rw [hTarget] at hReader
      injection hReader with hSame
      subst hSame
      obtain ⟨hSource, hMem⟩ := hSystem.hintFor?_eq_some_iff.mp hProducer
      rcases h.reads _ targetHint hTarget targetWire hTargetWire owner hOwner
        term hTerm with
        hInput | ⟨middle, hMiddleLe, hMiddle⟩
      · have hInternal :=
          (hSystem.outputs_internal _ sourceHint hSource term.wire hMem).1
        omega
      · obtain ⟨earlier, hLe, hEarlier⟩ := ih hSource hMem hMiddle
        exact ⟨earlier, Nat.le_trans hLe hMiddleLe, hEarlier⟩

/-- Once a term has been handled, so have the wires that it brings in. -/
theorem owner_le_of_draws {term : Term} {wire node : Nat}
    (hDraws : system.Draws term wire)
    (hInternal : system.layout.numInputs ≤ wire)
    (hTerm : term.wire < system.layout.numInputs ∨
      ∃ owner ≤ node, resolver[term.wire]? = some owner) :
    ∃ owner ≤ node, resolver[wire]? = some owner := by
  rcases hDraws with ⟨-, rfl⟩ | ⟨number, hint, hProducer, above, aboveHint,
    hAbove, hWire, hChain⟩
  · exact hTerm.resolve_left (Nat.not_lt.mpr hInternal)
  · obtain ⟨hGet, hOutput⟩ := hSystem.hintFor?_eq_some_iff.mp hProducer
    have hLow := (hSystem.outputs_internal number hint hGet term.wire hOutput).1
    obtain ⟨owner, hLe, hOwner⟩ := hTerm.resolve_left (Nat.not_lt.mpr hLow)
    obtain ⟨earlier, hEarlierLe, hEarlier⟩ :=
      h.owner_le_of_above hSystem hAbove hGet hChain hWire hOutput hOwner
    exact ⟨earlier, Nat.le_trans hEarlierLe hLe, hEarlier⟩

end ResolverSound

namespace ResolutionState

/-- What holds of the pass while it is at constraint `node`. -/
structure Consistent (system : ValidSystem p) (node : Nat)
    (state : ResolutionState) : Prop
    extends ResolverSound system (node + 1) state.resolver where
  settled : ∀ (number : Nat) (hint : Hint p),
    system.hints[number]? = some hint →
    ∀ wire ∈ hint.wires, state.resolver[wire]? = some node →
      ∀ term ∈ hint.terms,
      SettledFor system state.resolver state.cost.dependencies node term.wire
  earlier : ∀ dependency ∈ state.cost.dependencies, dependency < node
  decreasing : state.cost.dependencies.Pairwise (· > ·)

/-- How the pass goes on at constraint `node`: nothing is forgotten, and wires
that satisfy `Origin` are resolved by the constraint. -/
structure Extends (node : Nat) (Origin : Nat → Prop)
    (state state' : ResolutionState) : Prop where
  keeps : ∀ wire owner : Nat, state.resolver[wire]? = some owner →
    state'.resolver[wire]? = some owner
  adds : ∀ wire owner : Nat, state'.resolver[wire]? = some owner →
    state.resolver[wire]? = some owner ∨ owner = node ∧ Origin wire
  dependencies : ∀ dependency ∈ state.cost.dependencies,
    dependency ∈ state'.cost.dependencies

namespace Extends

variable {node : Nat} {Origin Origin' : Nat → Prop}
  {state state' state'' : ResolutionState}

private theorem refl (state : ResolutionState) :
    Extends node Origin state state where
  keeps := fun _ _ h => h
  adds := fun _ _ h => Or.inl h
  dependencies := fun _ h => h

private theorem trans (h : Extends node Origin state state')
    (h' : Extends node Origin state' state'') :
    Extends node Origin state state'' where
  keeps := fun wire owner hOld => h'.keeps wire owner (h.keeps wire owner hOld)
  adds := by
    intro wire owner hNew
    rcases h'.adds wire owner hNew with hMid | hAdded
    · exact h.adds wire owner hMid
    · exact Or.inr hAdded
  dependencies := fun d hd => h'.dependencies d (h.dependencies d hd)

private theorem mono (h : Extends node Origin state state')
    (hOrigin : ∀ wire, Origin wire → Origin' wire) :
    Extends node Origin' state state' where
  keeps := h.keeps
  adds := by
    intro wire owner hNew
    rcases h.adds wire owner hNew with hOld | ⟨hOwner, hWire⟩
    · exact Or.inl hOld
    · exact Or.inr ⟨hOwner, hOrigin wire hWire⟩
  dependencies := h.dependencies

private theorem settledFor {system : ValidSystem p} {wire : Nat}
    (h : Extends node Origin state state')
    (hWire :
      SettledFor system state.resolver state.cost.dependencies node wire) :
    SettledFor system state'.resolver state'.cost.dependencies node wire := by
  rcases hWire with hInput | ⟨owner, hOwner, hNode | hDependency⟩
  · exact Or.inl hInput
  · exact Or.inr ⟨owner, h.keeps wire owner hOwner, Or.inl hNode⟩
  · exact Or.inr ⟨owner, h.keeps wire owner hOwner,
      Or.inr (h.dependencies owner hDependency)⟩

end Extends

variable {system : ValidSystem p} {node : Nat} {state : ResolutionState}

/-- Charging changes nothing that the pass has found out. -/
theorem Consistent.charged (h : state.Consistent system node) (cost : NodeCost)
    (hCost : cost.dependencies = state.cost.dependencies) :
    ({ state with cost } : ResolutionState).Consistent system node where
  toResolverSound := h.toResolverSound
  settled := by
    rw [hCost]
    exact h.settled
  earlier := hCost ▸ h.earlier
  decreasing := hCost ▸ h.decreasing

private theorem Extends.charged {Origin : Nat → Prop} (cost : NodeCost)
    (hCost : cost.dependencies = state.cost.dependencies) :
    Extends node Origin state { state with cost } where
  keeps := fun _ _ h => h
  adds := fun _ _ h => Or.inl h
  dependencies := by
    rw [hCost]
    exact fun _ h => h

/-- When one output of a hint is unresolved, all are. -/
theorem Consistent.open_outputs {number wire : Nat} {hint : Hint p}
    (h : state.Consistent system node)
    (hGet : system.hints[number]? = some hint) (hWire : wire ∈ hint.wires)
    (hNone : state.resolver[wire]? = none) :
    ∀ output ∈ hint.wires, state.resolver[output]? = none :=
  fun output hOutput =>
    (h.whole number hint hGet output hOutput wire hWire).trans hNone

/-- Reading a resolved wire puts its resolver at hand. -/
theorem Consistent.read {wire owner : Nat} (h : state.Consistent system node)
    (hOwner : state.resolver[wire]? = some owner) :
    (state.read node owner).Consistent system node ∧
      Extends node (fun _ => False) state (state.read node owner) ∧
      SettledFor system (state.read node owner).resolver
        (state.read node owner).cost.dependencies node wire := by
  unfold ResolutionState.read
  split
  · next hSame =>
      exact ⟨h, Extends.refl state, Or.inr ⟨owner, hOwner, Or.inl hSame⟩⟩
  · next hOther =>
      have hExtends : Extends node (fun _ => False) state
          { state with cost := state.cost.dependOn owner } :=
        { keeps := fun _ _ h => h
          adds := fun _ _ h => Or.inl h
          dependencies := fun d hd => mem_insertDecreasing.mpr (Or.inr hd) }
      refine ⟨?_, hExtends, ?_⟩
      · exact
          { toResolverSound := h.toResolverSound
            settled := fun number hint hGet w hWire hResolved term hTerm =>
              hExtends.settledFor
                (h.settled number hint hGet w hWire hResolved term hTerm)
            earlier := by
              intro d hd
              rcases mem_insertDecreasing.mp hd with rfl | hd
              · have hBound := (h.bounded wire d hOwner).1
                omega
              · exact h.earlier d hd
            decreasing := pairwise_insertDecreasing h.decreasing }
      · exact Or.inr ⟨owner, hOwner,
          Or.inr (mem_insertDecreasing.mpr (Or.inl rfl))⟩

theorem resolver_resolve (node : Nat) (wires : List Nat) (wire : Nat) :
    (state.resolve node wires).resolver[wire]? =
      if wire ∈ wires then some node else state.resolver[wire]? :=
  getElem?_foldl_insert node wires state.resolver wire

/-- Resolving wires that were not resolved before extends the pass. -/
private theorem Extends.resolve {Origin : Nat → Prop} {start : ResolutionState}
    {wires : List Nat} (h : Extends node Origin start state)
    (hOrigin : ∀ wire ∈ wires, Origin wire)
    (hNew : ∀ wire ∈ wires, start.resolver[wire]? = none) :
    Extends node Origin start (state.resolve node wires) where
  keeps := by
    intro wire owner hOwner
    rw [resolver_resolve, if_neg]
    · exact h.keeps wire owner hOwner
    · intro hWire
      rw [hNew wire hWire] at hOwner
      cases hOwner
  adds := by
    intro wire owner hOwner
    rw [resolver_resolve] at hOwner
    split at hOwner
    · next hWire =>
        injection hOwner with hOwner
        exact Or.inr ⟨hOwner.symm, hOrigin wire hWire⟩
    · exact h.adds wire owner hOwner
  dependencies := h.dependencies

/-- A wire stays at hand when the constraint resolves more wires. -/
private theorem settledFor_resolve {wires : List Nat} {wire : Nat}
    (h : SettledFor system state.resolver state.cost.dependencies node wire) :
    SettledFor system (state.resolve node wires).resolver
      (state.resolve node wires).cost.dependencies node wire := by
  rcases h with hInput | ⟨owner, hOwner, hAt⟩
  · exact Or.inl hInput
  · by_cases hWire : wire ∈ wires
    · refine Or.inr ⟨node, ?_, Or.inl rfl⟩
      rw [resolver_resolve, if_pos hWire]
    · refine Or.inr ⟨owner, ?_, hAt⟩
      rw [resolver_resolve, if_neg hWire]
      exact hOwner

/-- A hint whose reads are at hand reads no circle of hints. -/
private theorem Consistent.accessible_of_settled {number : Nat} {hint : Hint p}
    (hSystem : system.WellFormed) (h : state.Consistent system node)
    (hGet : system.hints[number]? = some hint)
    (hTerms : ∀ term ∈ hint.terms,
      SettledFor system state.resolver state.cost.dependencies node term.wire) :
    Acc system.HintReads number := by
  constructor
  rintro source ⟨reader, sourceHint, hReader, term, hTerm, hProducer⟩
  rw [hGet] at hReader
  obtain rfl := Option.some.inj hReader
  obtain ⟨hSource, hWire⟩ := hSystem.hintFor?_eq_some_iff.mp hProducer
  rcases hTerms term hTerm with hInput | ⟨owner, hOwner, _⟩
  · have hInternal :=
      (hSystem.outputs_internal source sourceHint hSource term.wire hWire).1
    omega
  · exact h.accessible source sourceHint hSource term.wire hWire owner hOwner

/-- A hint may be resolved once all it reads is at hand. -/
private theorem Consistent.resolveHint {number : Nat} {hint : Hint p}
    (hSystem : system.WellFormed) (h : state.Consistent system node)
    (hGet : system.hints[number]? = some hint)
    (hOwn : ∀ wire ∈ hint.wires, ∀ owner : Nat,
      state.resolver[wire]? = some owner → owner = node)
    (hTerms : ∀ term ∈ hint.terms,
      SettledFor system state.resolver state.cost.dependencies node term.wire) :
    (state.resolve node hint.wires).Consistent system node := by
  have hOther : ∀ {number' : Nat} {hint' : Hint p} {wire : Nat},
      system.hints[number']? = some hint' → wire ∈ hint'.wires →
        number' ≠ number →
        wire ∉ hint.wires := by
    intro number' hint' wire hGet' hWire hDifferent hMem
    exact hDifferent (hSystem.producer_unique hGet' hWire hGet hMem).1
  have hSame : ∀ {hint' : Hint p}, system.hints[number]? = some hint' →
      hint' = hint := by
    intro hint' hGet'
    rw [hGet] at hGet'
    injection hGet' with hSame
    exact hSame.symm
  have hAccessible := h.accessible_of_settled hSystem hGet hTerms
  exact
    { bounded := by
        intro wire owner hOwner
        rw [resolver_resolve] at hOwner
        split at hOwner
        · next hWire =>
            injection hOwner with hOwner
            exact ⟨by omega,
              hSystem.outputs_internal number hint hGet wire hWire⟩
        · exact h.bounded wire owner hOwner
      whole := by
        intro number' hint' hGet' wire hWire wire' hWire'
        rw [resolver_resolve, resolver_resolve]
        by_cases hNumber : number' = number
        · subst hNumber
          obtain rfl := hSame hGet'
          rw [if_pos hWire, if_pos hWire']
        · rw [if_neg (hOther hGet' hWire hNumber),
            if_neg (hOther hGet' hWire' hNumber)]
          exact h.whole number' hint' hGet' wire hWire wire' hWire'
      reads := by
        intro number' hint' hGet' wire hWire owner hOwner term hTerm
        by_cases hNumber : number' = number
        · subst hNumber
          obtain rfl := hSame hGet'
          rw [resolver_resolve, if_pos hWire] at hOwner
          injection hOwner with hOwner
          subst hOwner
          rcases settledFor_resolve (hTerms term hTerm)
            with hInput | ⟨earlier, hEarlier, hAt⟩
          · exact Or.inl hInput
          · refine Or.inr ⟨earlier, ?_, hEarlier⟩
            rcases hAt with rfl | hDependency
            · exact Nat.le_refl _
            · exact Nat.le_of_lt (h.earlier earlier hDependency)
        · rw [resolver_resolve, if_neg (hOther hGet' hWire hNumber)] at hOwner
          refine (h.reads number' hint' hGet' wire hWire owner hOwner term
            hTerm).imp_right ?_
          rintro ⟨earlier, hLe, hEarlier⟩
          refine ⟨earlier, hLe, ?_⟩
          rw [resolver_resolve]
          split
          · next hMem => rw [hOwn term.wire hMem earlier hEarlier]
          · exact hEarlier
      accessible := by
        intro number' hint' hGet' wire hWire owner hOwner
        by_cases hNumber : number' = number
        · exact hNumber ▸ hAccessible
        · rw [resolver_resolve, if_neg (hOther hGet' hWire hNumber)] at hOwner
          exact h.accessible number' hint' hGet' wire hWire owner hOwner
      settled := by
        intro number' hint' hGet' wire hWire hOwner term hTerm
        by_cases hNumber : number' = number
        · subst hNumber
          obtain rfl := hSame hGet'
          exact settledFor_resolve (hTerms term hTerm)
        · rw [resolver_resolve, if_neg (hOther hGet' hWire hNumber)] at hOwner
          exact settledFor_resolve
            (h.settled number' hint' hGet' wire hWire hOwner term hTerm)
      earlier := h.earlier
      decreasing := h.decreasing }

/-- A plain wire may be resolved at any time. -/
private theorem Consistent.resolvePlain {wire : Nat}
    (hSystem : system.WellFormed) (h : state.Consistent system node)
    (hPlain : system.hintFor? wire = none)
    (hNone : state.resolver[wire]? = none)
    (hLow : system.layout.numInputs ≤ wire)
    (hHigh : wire < system.layout.numWires) :
    (state.resolve node [wire]).Consistent system node := by
  have hOutput : ∀ {number : Nat} {hint : Hint p} {output : Nat},
      system.hints[number]? = some hint → output ∈ hint.wires →
        output ∉ [wire] := by
    intro number hint output hGet hWire hMem
    rw [List.mem_singleton] at hMem
    subst hMem
    rw [hSystem.hintFor?_eq_some_iff.mpr ⟨hGet, hWire⟩] at hPlain
    cases hPlain
  exact
    { bounded := by
        intro other owner hOwner
        rw [resolver_resolve] at hOwner
        split at hOwner
        · next hOther =>
            rw [List.mem_singleton] at hOther
            injection hOwner with hOwner
            exact ⟨by omega, by omega, by omega⟩
        · exact h.bounded other owner hOwner
      whole := by
        intro number hint hGet output hMem output' hMem'
        rw [resolver_resolve, resolver_resolve, if_neg (hOutput hGet hMem),
          if_neg (hOutput hGet hMem')]
        exact h.whole number hint hGet output hMem output' hMem'
      reads := by
        intro number hint hGet output hMem owner hOwner term hTerm
        rw [resolver_resolve, if_neg (hOutput hGet hMem)] at hOwner
        refine (h.reads number hint hGet output hMem owner hOwner term
          hTerm).imp_right ?_
        rintro ⟨earlier, hLe, hEarlier⟩
        refine ⟨earlier, hLe, ?_⟩
        rw [resolver_resolve, if_neg]
        · exact hEarlier
        · intro hSame
          rw [List.mem_singleton.mp hSame, hNone] at hEarlier
          cases hEarlier
      accessible := by
        intro number hint hGet output hMem owner hOwner
        rw [resolver_resolve, if_neg (hOutput hGet hMem)] at hOwner
        exact h.accessible number hint hGet output hMem owner hOwner
      settled := by
        intro number hint hGet output hMem hOwner term hTerm
        rw [resolver_resolve, if_neg (hOutput hGet hMem)] at hOwner
        exact settledFor_resolve
          (h.settled number hint hGet output hMem hOwner term hTerm)
      earlier := h.earlier
      decreasing := h.decreasing }

end ResolutionState

/-! ## The pass -/

namespace ValidSystem

open ResolutionState

variable {system : ValidSystem p} {node : Nat} {state state' : ResolutionState}

/-! ### Taking the pass apart -/

section Inversion

variable {number : Nat} {hint : Hint p} {term : Term} {cause : Fault}

/-- A term that a hint reads has been handled: it is an input, its wire is
resolved already, or the hint that produces it has been resolved. -/
theorem resolveHintTerm_eq_ok {reader : Nat}
    {run : Nat → Hint p → ResolutionState → Except Fault ResolutionState}
    (h : system.resolveHintTerm node reader run state term = .ok state') :
    term.wire < system.layout.numInputs ∧ state' = state ∨
    (∃ owner, state.resolver[term.wire]? = some owner ∧
      state' = state.read node owner) ∨
    ∃ source sourceHint, state.resolver[term.wire]? = none ∧
      system.hintFor? term.wire = some (source, sourceHint) ∧
      run source sourceHint state = .ok state' := by
  unfold resolveHintTerm at h
  split at h
  · next hInput =>
      injection h with h
      exact Or.inl ⟨hInput, h.symm⟩
  split at h
  · next owner hOwner =>
      injection h with h
      exact Or.inr (Or.inl ⟨owner, hOwner, h.symm⟩)
  next hNone =>
  split at h
  · next source sourceHint hProducer =>
      exact Or.inr (Or.inr ⟨source, sourceHint, hNone, hProducer, h⟩)
  · cases h

/-- A hint has been resolved: it was not waiting for itself, the terms that it
reads have been handled, and then its outputs are resolved. -/
theorem resolveHint_eq_ok {levels : Nat} {pending : List Nat}
    (h : system.resolveHint node (levels + 1) pending number hint state =
      .ok state') :
    number ∉ pending ∧ ∃ settled,
      hint.terms.foldlM (system.resolveHintTerm node hint.firstWire
          (system.resolveHint node levels (number :: pending)))
        { state with cost := state.cost.chargeHint hint } = .ok settled ∧
      state' = settled.resolve node hint.wires := by
  unfold resolveHint at h
  split at h
  · cases h
  next hPending =>
  dsimp only at h
  split at h
  · cases h
  next settled hFold =>
  injection h with h
  exact ⟨hPending, settled, hFold, h.symm⟩

/-- A term of a constraint has been charged and handled: it is an input, its
wire is resolved already, the hint that produces it has been resolved, or the
constraint is to be solved for it. -/
theorem resolveTerm_eq_ok
    (h : system.resolveTerm node state term = .ok state') :
    term.wire < system.layout.numInputs ∧
      state' = { state with cost := state.cost.charge 1 } ∨
    (∃ owner, state.resolver[term.wire]? = some owner ∧
      state' = ({ state with cost := state.cost.charge 1 } :
        ResolutionState).read node owner) ∨
    (∃ number hint, state.resolver[term.wire]? = none ∧
      system.hintFor? term.wire = some (number, hint) ∧
      system.resolveHint node (system.hints.size + 1) [] number hint
        { state with cost := state.cost.charge 1 } = .ok state') ∨
    system.layout.numInputs ≤ term.wire ∧ state.resolver[term.wire]? = none ∧
      system.hintFor? term.wire = none ∧
      state' = ({ state with
        cost := (state.cost.charge 1).charge NodeCost.solveWeight } :
          ResolutionState).resolve node [term.wire] := by
  unfold resolveTerm at h
  dsimp only at h
  split at h
  · next hInput =>
      injection h with h
      exact Or.inl ⟨hInput, h.symm⟩
  next hInternal =>
  split at h
  · next owner hOwner =>
      injection h with h
      exact Or.inr (Or.inl ⟨owner, hOwner, h.symm⟩)
  next hNone =>
  split at h
  · next number hint hProducer =>
      exact Or.inr (Or.inr (Or.inl ⟨number, hint, hNone, hProducer, h⟩))
  · next hPlain =>
      injection h with h
      exact Or.inr
        (Or.inr (Or.inr ⟨Nat.le_of_not_lt hInternal, hNone, hPlain, h.symm⟩))

end Inversion

/-! ### What it establishes -/

/-- Resolving a hint resolves its outputs, after those of hints above it. -/
theorem resolveHint_sound (hSystem : system.WellFormed) {levels : Nat}
    {pending : List Nat} {number : Nat} {hint : Hint p}
    (hGet : system.hints[number]? = some hint)
    (hOpen : ∀ wire ∈ hint.wires, state.resolver[wire]? = none)
    (hState : state.Consistent system node)
    (h : system.resolveHint node levels pending number hint state =
      .ok state') :
    state'.Consistent system node ∧
      Extends node (system.OutputAbove number) state state' ∧
      ∀ wire ∈ hint.wires, state'.resolver[wire]? = some node := by
  induction levels generalizing pending number hint state state' with
  | zero =>
      unfold resolveHint at h
      cases h
  | succ levels ih =>
      obtain ⟨-, settled, hFold, rfl⟩ := resolveHint_eq_ok h
      -- Every term the hint reads is at hand when the loop over its terms ends.
      obtain ⟨⟨hSettled, hExtends⟩, hTerms, -⟩ := foldlM_ok_collect
        (fun current => current.Consistent system node ∧
          Extends node (system.OutputAbove number) state current)
        (fun term current =>
          SettledFor system current.resolver current.cost.dependencies
            node term.wire)
        hFold ⟨hState.charged (state.cost.chargeHint hint) rfl,
          Extends.charged (state.cost.chargeHint hint) rfl⟩ (by
          rintro term hTerm current next ⟨hCurrent, hBefore⟩ hNext
          rcases resolveHintTerm_eq_ok hNext
            with ⟨hInput, rfl⟩ | ⟨owner, hOwner, rfl⟩ |
            ⟨source, sourceHint, hNone, hProducer, hNext⟩
          · exact ⟨⟨hCurrent, hBefore⟩, Or.inl hInput, fun _ hOther => hOther⟩
          · obtain ⟨hRead, hStep, hWire⟩ := hCurrent.read hOwner
            exact ⟨⟨hRead, hBefore.trans (hStep.mono fun _ hFalse =>
              hFalse.elim)⟩, hWire, fun _ hOther => hStep.settledFor hOther⟩
          · obtain ⟨hSource, hWire⟩ := hSystem.hintFor?_eq_some_iff.mp hProducer
            obtain ⟨hDone, hStep, hResolved⟩ :=
              ih hSource (hCurrent.open_outputs hSource hWire hNone)
                hCurrent hNext
            have hReads : system.HintReads source number :=
              ⟨hint, sourceHint, hGet, term, hTerm, hProducer⟩
            refine ⟨⟨hDone, hBefore.trans (hStep.mono ?_)⟩, ?_, ?_⟩
            · rintro wire ⟨above, aboveHint, hAbove, hMem, hChain⟩
              exact ⟨above, aboveHint, hAbove, hMem, hChain.tail hReads⟩
            · exact Or.inr ⟨node, hResolved term.wire hWire, Or.inl rfl⟩
            · exact fun _ hOther => hStep.settledFor hOther)
      refine ⟨hSettled.resolveHint hSystem hGet ?_ hTerms,
        hExtends.resolve ?_ hOpen, ?_⟩
      · intro wire hWire owner hOwner
        rcases hExtends.adds wire owner hOwner with hOld | ⟨hSame, -⟩
        · rw [hOpen wire hWire] at hOld
          cases hOld
        · exact hSame
      · intro wire hWire
        exact ⟨number, hint, hGet, hWire, Relation.ReflTransGen.refl⟩
      · intro wire hWire
        rw [resolver_resolve, if_pos hWire]

/-- After a term of a constraint its wire is at hand. -/
theorem resolveTerm_sound (hSystem : system.WellFormed) {term : Term}
    (hTerm : system.TermInRange term) (hState : state.Consistent system node)
    (h : system.resolveTerm node state term = .ok state') :
    state'.Consistent system node ∧
      Extends node (system.Draws term) state state' ∧
      SettledFor system state'.resolver state'.cost.dependencies node
        term.wire := by
  have hCharged : ({ state with cost := state.cost.charge 1 } :
      ResolutionState).Consistent system node :=
        hState.charged (state.cost.charge 1) rfl
  have hStart : Extends node (system.Draws term) state
      { state with cost := state.cost.charge 1 } :=
          Extends.charged (state.cost.charge 1) rfl
  rcases resolveTerm_eq_ok h with ⟨hInput, rfl⟩ | ⟨owner, hOwner, rfl⟩ |
    ⟨number, hint, hNone, hProducer, h⟩ | ⟨hLow, hNone, hPlain, rfl⟩
  · exact ⟨hCharged, hStart, Or.inl hInput⟩
  · obtain ⟨hRead, hStep, hWire⟩ := hCharged.read hOwner
    exact ⟨hRead, hStart.trans (hStep.mono fun _ hFalse => hFalse.elim), hWire⟩
  · obtain ⟨hGet, hWire⟩ := hSystem.hintFor?_eq_some_iff.mp hProducer
    obtain ⟨hDone, hStep, hResolved⟩ :=
      resolveHint_sound hSystem hGet
        (hCharged.open_outputs hGet hWire hNone) hCharged h
    refine ⟨hDone, hStart.trans (hStep.mono ?_), ?_⟩
    · exact fun wire hAbove => Or.inr ⟨number, hint, hProducer, hAbove⟩
    · exact Or.inr ⟨node, hResolved term.wire hWire, Or.inl rfl⟩
  · have hSolve : ({ state with
        cost := (state.cost.charge 1).charge NodeCost.solveWeight } :
          ResolutionState).Consistent system node :=
      hState.charged ((state.cost.charge 1).charge NodeCost.solveWeight) rfl
    refine ⟨hSolve.resolvePlain hSystem hPlain hNone hLow hTerm.1, ?_, ?_⟩
    · apply Extends.resolve
        (Extends.charged
          ((state.cost.charge 1).charge NodeCost.solveWeight) rfl)
      · intro wire hWire
        obtain rfl := List.mem_singleton.mp hWire
        exact Or.inl ⟨hPlain, rfl⟩
      · intro wire hWire
        obtain rfl := List.mem_singleton.mp hWire
        exact hNone
    · refine Or.inr ⟨node, ?_, Or.inl rfl⟩
      rw [resolver_resolve, if_pos (List.mem_singleton.mpr rfl)]

end ValidSystem

/-- What the pass has found out about constraint `node` when it is over. -/
structure NodeResolved (system : ValidSystem p) (resolver : Std.TreeMap Nat Nat)
    (node : Nat) (c : Constraint) (cost : NodeCost) : Prop where
  earlier : ∀ dependency ∈ cost.dependencies, dependency < node
  decreasing : cost.dependencies.Pairwise (· > ·)
  settled : ∀ term ∈ c.terms,
    SettledFor system resolver cost.dependencies node term.wire
  hintSettled : ∀ (number : Nat) (hint : Hint p),
    system.hints[number]? = some hint →
    ∀ wire ∈ hint.wires, resolver[wire]? = some node → ∀ term ∈ hint.terms,
      SettledFor system resolver cost.dependencies node term.wire
  drawn : ∀ wire : Nat, resolver[wire]? = some node →
    ∃ term ∈ c.terms, system.Draws term wire

/-- What holds of a finished pass. -/
structure Resolution.Sound (system : ValidSystem p) (resolution : Resolution) :
    Prop
    extends ResolverSound system system.constraints.size
      resolution.resolver where
  length_costs : resolution.costs.length = system.constraints.size
  node : ∀ (node : Nat) (c : Constraint) (cost : NodeCost),
    system.constraints[node]? = some c → resolution.costs[node]? = some cost →
      NodeResolved system resolution.resolver node c cost

namespace Resolution.Sound

variable {system : ValidSystem p} {resolution : Resolution}
  (h : resolution.Sound system) {node : Nat} {c : Constraint}
  (hGet : system.constraints[node]? = some c)
include h

/-- Every cost is that of a constraint. -/
theorem exists_constraint {cost : NodeCost}
    (hCost : resolution.costs[node]? = some cost) :
    ∃ c, system.constraints[node]? = some c :=
  ⟨_, Array.getElem?_eq_getElem
    (h.length_costs ▸ (List.getElem?_eq_some_iff.mp hCost).1)⟩

include hGet

theorem exists_nodeResolved :
    ∃ cost, NodeResolved system resolution.resolver node c cost := by
  have hNode := (Array.getElem?_eq_some_iff.mp hGet).1
  have hCost := List.getElem?_eq_getElem (h.length_costs.symm ▸ hNode)
  exact ⟨_, h.node node c _ hGet hCost⟩

/-- A wire that occurs in a constraint and is no input has been resolved. -/
theorem exists_owner {term : Term} (hTerm : term ∈ c.terms)
    (hLow : system.layout.numInputs ≤ term.wire) :
    ∃ owner, resolution.resolver[term.wire]? = some owner := by
  obtain ⟨cost, hNode⟩ := h.exists_nodeResolved hGet
  rcases hNode.settled term hTerm with hInput | ⟨owner, hOwner, -⟩
  · omega
  · exact ⟨owner, hOwner⟩

end Resolution.Sound

namespace ValidSystem

open ResolutionState

variable {system : ValidSystem p}

theorem resolverSound_empty : ResolverSound system 0 ∅ where
  bounded := by
    intro wire owner hOwner
    simp at hOwner
  whole := by simp
  reads := by
    intro number hint _ wire _ owner hOwner
    simp at hOwner
  accessible := by
    intro number hint _ wire _ owner hOwner
    simp at hOwner

/-- A constraint starts with what the earlier constraints have resolved. -/
theorem consistent_start {node : Nat} {resolver : Std.TreeMap Nat Nat}
    (h : ResolverSound system node resolver) :
    ResolutionState.Consistent system node ⟨resolver, {}⟩ where
  bounded := by
    intro wire owner hOwner
    obtain ⟨hBound, hRange⟩ := h.bounded wire owner hOwner
    exact ⟨by omega, hRange⟩
  whole := h.whole
  reads := h.reads
  accessible := h.accessible
  settled := by
    intro number hint _ wire _ hOwner
    have hBound := (h.bounded wire node hOwner).1
    omega
  earlier := by simp
  decreasing := by simp

/-- After the terms of a constraint their wires are at hand. -/
theorem resolveTerms_sound (hSystem : system.WellFormed) {node : Nat}
    {terms : List Term} {start state : ResolutionState}
    (hTerms : ∀ term ∈ terms, system.TermInRange term)
    (hStart : start.Consistent system node)
    (h : terms.foldlM (system.resolveTerm node) start = .ok state) :
    state.Consistent system node ∧
      Extends node (fun wire => ∃ term ∈ terms,
        system.Draws term wire) start state ∧
      ∀ term ∈ terms,
        SettledFor system state.resolver state.cost.dependencies node
          term.wire := by
  obtain ⟨⟨hState, hExtends⟩, hSettled, -⟩ := foldlM_ok_collect
    (fun current => current.Consistent system node ∧
      Extends node (fun wire => ∃ term ∈ terms,
        system.Draws term wire) start current)
    (fun term current =>
      SettledFor system current.resolver current.cost.dependencies
        node term.wire)
    h ⟨hStart, Extends.refl _⟩ (by
      rintro term hTerm current next ⟨hCurrent, hBefore⟩ hNext
      obtain ⟨hDone, hStep, hWire⟩ :=
        resolveTerm_sound hSystem (hTerms term hTerm) hCurrent hNext
      exact ⟨⟨hDone,
        hBefore.trans (hStep.mono fun _ hDraws => ⟨term, hTerm, hDraws⟩)⟩,
        hWire, fun _ hOther => hStep.settledFor hOther⟩)
  exact ⟨hState, hExtends, hSettled⟩

/-- Constraint `node` has been gone through in a pass that went on to `later`:
the pass came to it with the wires of `before`, left it in `state`, and has then
resolved wires for later constraints only. -/
structure Passed (system : ValidSystem p) (node : Nat) (c : Constraint)
    (before : Std.TreeMap Nat Nat) (state : ResolutionState)
    (later : Std.TreeMap Nat Nat) : Prop where
  start : ResolverSound system node before
  run : c.terms.foldlM (system.resolveTerm node) ⟨before, {}⟩ = .ok state
  keeps : ∀ wire owner : Nat, state.resolver[wire]? = some owner →
    later[wire]? = some owner
  adds : ∀ wire owner : Nat, later[wire]? = some owner →
    state.resolver[wire]? = some owner ∨ node + 1 ≤ owner

namespace Passed

variable {node : Nat} {c : Constraint} {before later : Std.TreeMap Nat Nat}
  {state : ResolutionState} (h : Passed system node c before state later)
include h

/-- What the constraint resolves has been settled when the pass leaves it. -/
theorem own_iff (wire : Nat) :
    later[wire]? = some node ↔ state.resolver[wire]? = some node := by
  constructor
  · intro hOwner
    rcases h.adds wire node hOwner with hOld | hLate
    · exact hOld
    · omega
  · exact h.keeps wire node

/-- What the pass has found out when it leaves a constraint stays true when
later constraints resolve wires in their own names. -/
theorem nodeResolved (hSystem : system.WellFormed)
    (hTerms : ∀ term ∈ c.terms, system.TermInRange term) :
    NodeResolved system later node c state.cost := by
  obtain ⟨hState, hExtends, hSettled⟩ :=
    resolveTerms_sound hSystem hTerms (consistent_start h.start) h.run
  have hFinal : ∀ wire : Nat,
      SettledFor system state.resolver state.cost.dependencies node wire →
        SettledFor system later state.cost.dependencies node wire := by
    rintro wire (hInput | ⟨owner, hOwner, hAt⟩)
    · exact Or.inl hInput
    · exact Or.inr ⟨owner, h.keeps wire owner hOwner, hAt⟩
  exact
    { earlier := hState.earlier
      decreasing := hState.decreasing
      settled := fun term hTerm => hFinal term.wire (hSettled term hTerm)
      hintSettled :=
        fun number hint hHint wire hWire hOwner term hTerm => hFinal term.wire
        (hState.settled number hint hHint wire hWire
          ((h.own_iff wire).mp hOwner) term hTerm)
      drawn := by
        intro wire hOwner
        rcases hExtends.adds wire node ((h.own_iff wire).mp hOwner)
          with hOld | ⟨-, hDrawn⟩
        · have hBound := (h.start.bounded wire node hOld).1
          omega
        · exact hDrawn }

end Passed

/-- What the pass establishes from constraint `node` on. -/
private theorem resolveFrom_sound (hSystem : system.WellFormed) {node : Nat}
    {cs : List Constraint} {resolver : Std.TreeMap Nat Nat}
    {resolution : Resolution}
    (hTerms : ∀ c ∈ cs, ∀ term ∈ c.terms, system.TermInRange term)
    (hResolver : ResolverSound system node resolver)
    (h : system.resolveFrom node cs resolver = .ok resolution) :
    resolution.costs.length = cs.length ∧
      ResolverSound system (node + cs.length) resolution.resolver ∧
      (∀ wire owner : Nat, resolver[wire]? = some owner →
        resolution.resolver[wire]? = some owner) ∧
      (∀ wire owner : Nat, resolution.resolver[wire]? = some owner →
        resolver[wire]? = some owner ∨ node ≤ owner) ∧
      ∀ (i : Nat) (c : Constraint) (cost : NodeCost), cs[i]? = some c →
        resolution.costs[i]? = some cost → ∃ before state,
          Passed system (node + i) c before state resolution.resolver ∧
            state.cost = cost := by
  induction cs generalizing node resolver resolution with
  | nil =>
      injection h with h
      subst h
      exact ⟨rfl, hResolver, fun _ _ hOwner => hOwner,
        fun _ _ hOwner => Or.inl hOwner, by simp⟩
  | cons first rest ih =>
      unfold resolveFrom at h
      split at h
      · cases h
      next state hFold =>
      split at h
      · cases h
      next later hLater =>
      injection h with h
      subst h
      obtain ⟨hState, hExtends, -⟩ := resolveTerms_sound hSystem
        (hTerms first List.mem_cons_self) (consistent_start hResolver) hFold
      obtain ⟨hLength, hSound, hKeeps, hAdds, hNodes⟩ := ih
        (fun c hc =>
          hTerms c (List.mem_cons_of_mem _ hc)) hState.toResolverSound hLater
      refine ⟨by simp [hLength], ?_, ?_, ?_, ?_⟩
      · have hBound :
            node + 1 + rest.length = node + (first :: rest).length := by
          rw [List.length_cons]
          omega
        exact hBound ▸ hSound
      · intro wire owner hOwner
        exact hKeeps wire owner (hExtends.keeps wire owner hOwner)
      · intro wire owner hOwner
        rcases hAdds wire owner hOwner with hMid | hLate
        · rcases hExtends.adds wire owner hMid with hOld | ⟨hNode, -⟩
          · exact Or.inl hOld
          · exact Or.inr (by omega)
        · exact Or.inr (by omega)
      · intro i c cost hGet hCost
        cases i with
        | zero =>
            injection hGet with hGet
            injection hCost with hCost
            subst hGet
            exact ⟨resolver, state, ⟨hResolver, hFold, hKeeps, hAdds⟩, hCost⟩
        | succ i =>
            have hShift : node + 1 + i = node + (i + 1) := by omega
            exact hShift ▸ hNodes i c cost hGet hCost

/-- A pass that ends well has gone through every constraint. -/
theorem resolution_passed (hSystem : system.WellFormed)
    {resolution : Resolution} (h : system.resolution = .ok resolution) :
    resolution.costs.length = system.constraints.size ∧
      ResolverSound system system.constraints.size resolution.resolver ∧
      ∀ (node : Nat) (c : Constraint) (cost : NodeCost),
        system.constraints[node]? = some c →
        resolution.costs[node]? = some cost → ∃ before state,
          Passed system node c before state resolution.resolver ∧
            state.cost = cost := by
  have hTerms : ∀ c ∈ system.constraints.toList, ∀ term ∈ c.terms,
      system.TermInRange term := by
    intro c hc
    obtain ⟨number, hGet⟩ := mem_toList_iff_getElem?.mp hc
    exact hSystem.terms_inRange number c hGet
  obtain ⟨hLength, hSound, -, -, hNodes⟩ :=
    resolveFrom_sound hSystem hTerms resolverSound_empty h
  rw [Array.length_toList] at hLength
  rw [Array.length_toList, Nat.zero_add] at hSound
  refine ⟨hLength, hSound, ?_⟩
  intro node c cost hGet hCost
  have hNode := hNodes node c cost (by simpa using hGet) hCost
  rwa [Nat.zero_add] at hNode

/-- What a pass that ends well has found out. -/
theorem resolution_sound (hSystem : system.WellFormed) {resolution : Resolution}
    (h : system.resolution = .ok resolution) : resolution.Sound system := by
  obtain ⟨hLength, hSound, hNodes⟩ := resolution_passed hSystem h
  exact
    { toResolverSound := hSound
      length_costs := hLength
      node := by
        intro node c cost hGet hCost
        obtain ⟨before, state, hPassed, rfl⟩ := hNodes node c cost hGet hCost
        exact hPassed.nodeResolved hSystem (hSystem.terms_inRange node c hGet) }

end ValidSystem

end RankOne
