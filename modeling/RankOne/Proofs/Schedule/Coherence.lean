import Mathlib.Order.Bounds.Defs
import RankOne.Proofs.Schedule.Resolution

/-!
# Which constraint resolves a wire

A wire is resolved by the first constraint that brings it in, whatever the order
in which the terms of a constraint are gone through. So the result of the
resolution pass can be described without going through terms: it is the only map
of wires to constraints that is coherent with the system. Conversely, a system
with a coherent map goes through the pass, unless some constraint runs a hint
that reads a wire for which the constraint is to be solved. Only for such a hint
does it matter what comes first.
-/

namespace RankOne

variable {p : Nat}

namespace ValidSystem

/-- A map of wires to the constraints that resolve them, whatever the order of
terms. -/
structure Coherent (system : ValidSystem p) (resolver : Std.TreeMap Nat Nat) :
    Prop
    extends ResolverSound system system.constraints.size resolver where
  mentions : ∀ (node : Nat) (c : Constraint),
    system.constraints[node]? = some c →
    ∀ term ∈ c.terms, term.wire < system.layout.numInputs ∨
      ∃ owner ≤ node, resolver[term.wire]? = some owner
  drawn : ∀ wire node : Nat, resolver[wire]? = some node →
    ∃ c, system.constraints[node]? = some c ∧
    ∃ term ∈ c.terms, system.Draws term wire

end ValidSystem

/-- A pass that ends well finds a coherent map. -/
theorem Resolution.Sound.coherent {system : ValidSystem p}
    {resolution : Resolution} (h : resolution.Sound system) :
    system.Coherent resolution.resolver := by
  refine { h.toResolverSound with mentions := ?_, drawn := ?_ }
  · intro node c hGet term hTerm
    obtain ⟨cost, hResolved⟩ := h.exists_nodeResolved hGet
    refine (hResolved.settled term hTerm).imp_right ?_
    rintro ⟨owner, hOwner, rfl | hDependency⟩
    · exact ⟨owner, Nat.le_refl _, hOwner⟩
    · exact ⟨owner, Nat.le_of_lt (hResolved.earlier owner hDependency), hOwner⟩
  · intro wire node hOwner
    have hGet := Array.getElem?_eq_getElem (h.bounded wire node hOwner).1
    obtain ⟨cost, hResolved⟩ := h.exists_nodeResolved hGet
    exact ⟨_, hGet, hResolved.drawn wire hOwner⟩

namespace ValidSystem

variable {system : ValidSystem p} {resolver resolver' : Std.TreeMap Nat Nat}

/-! ## There is at most one coherent map -/

namespace Coherent

/-- A wire is resolved by the first constraint that brings it in, so that
another coherent map has it resolved no later. -/
private theorem owner_le (hSystem : system.WellFormed)
    (h : system.Coherent resolver) (h' : system.Coherent resolver')
    {wire owner : Nat} (hOwner : resolver[wire]? = some owner) :
    ∃ earlier ≤ owner, resolver'[wire]? = some earlier := by
  obtain ⟨c, hGet, term, hTerm, hDraws⟩ := h.drawn wire owner hOwner
  exact h'.owner_le_of_draws hSystem hDraws (h.bounded wire owner hOwner).2.1
    (h'.mentions owner c hGet term hTerm)

theorem unique (hSystem : system.WellFormed) (h : system.Coherent resolver)
    (h' : system.Coherent resolver') (wire : Nat) :
    resolver[wire]? = resolver'[wire]? := by
  have hSame : ∀ {first second : Std.TreeMap Nat Nat}, system.Coherent first →
      system.Coherent second → ∀ owner, first[wire]? = some owner →
        second[wire]? = some owner := by
    intro first second hFirst hSecond owner hOwner
    obtain ⟨earlier, hLe, hEarlier⟩ := hFirst.owner_le hSystem hSecond hOwner
    obtain ⟨again, hAgainLe, hAgain⟩ := hSecond.owner_le hSystem hFirst hEarlier
    rw [hOwner] at hAgain
    injection hAgain with hAgain
    obtain rfl : owner = earlier := by omega
    exact hEarlier
  exact Option.ext fun owner => ⟨hSame h h' owner, hSame h' h owner⟩

end Coherent

/-! ## It names the first constraints -/

/-- Constraint `node` mentions a wire. -/
def Mentions (system : ValidSystem p) (node wire : Nat) : Prop :=
  ∃ c, system.constraints[node]? = some c ∧ ∃ term ∈ c.terms, term.wire = wire

/-- Constraint `node` calls for hint `number`: it mentions an output of the
hint, or it resolves a hint that reads one. -/
def CallsFor (system : ValidSystem p) (resolver : Std.TreeMap Nat Nat)
    (number node : Nat) : Prop :=
  (∃ hint, system.hints[number]? = some hint ∧
    ∃ wire ∈ hint.wires, system.Mentions node wire) ∨
    ∃ (reader : Nat) (readerHint : Hint p),
      system.hints[reader]? = some readerHint ∧
      system.HintReads number reader ∧
        resolver[readerHint.firstWire]? = some node

namespace Coherent

variable {wire owner : Nat} (h : system.Coherent resolver)
include h

/-- A wire that a constraint mentions is resolved no later. -/
private theorem owner_le_of_mentions {node : Nat}
    (hMentions : system.Mentions node wire)
    (hOwner : resolver[wire]? = some owner) : owner ≤ node := by
  obtain ⟨c, hGet, term, hTerm, rfl⟩ := hMentions
  have hLow := (h.bounded _ owner hOwner).2.1
  obtain ⟨earlier, hLe, hEarlier⟩ :=
    (h.mentions node c hGet term hTerm).resolve_left (Nat.not_lt.mpr hLow)
  rw [hOwner] at hEarlier
  injection hEarlier with hSame
  exact hSame ▸ hLe

variable (hSystem : system.WellFormed)
include hSystem

/-- A plain wire is resolved by the first constraint that mentions it. -/
theorem isLeast_plain (hPlain : system.hintFor? wire = none)
    (hOwner : resolver[wire]? = some owner) :
    IsLeast {node | system.Mentions node wire} owner := by
  refine ⟨?_, fun node hMentions => h.owner_le_of_mentions hMentions hOwner⟩
  obtain ⟨c, hGet, term, hTerm,
    ⟨-, hWire⟩ | ⟨-, -, -, number, hint, hHint, hWire, -⟩⟩ :=
    h.drawn wire owner hOwner
  · exact ⟨c, hGet, term, hTerm, hWire.symm⟩
  · rw [hSystem.hintFor?_eq_some_iff.mpr ⟨hHint, hWire⟩] at hPlain
    cases hPlain

/-- A hint is resolved no later than a hint that reads its outputs. -/
private theorem owner_le_of_reads {number reader readerOwner : Nat}
    {hint readerHint : Hint p} (hGet : system.hints[number]? = some hint)
    (hWire : wire ∈ hint.wires) (hOwner : resolver[wire]? = some owner)
    (hReader : system.hints[reader]? = some readerHint)
    (hReads : system.HintReads number reader)
    (hReaderOwner : resolver[readerHint.firstWire]? = some readerOwner) :
    owner ≤ readerOwner := by
  obtain ⟨earlier, hLe, hEarlier⟩ := h.owner_le_of_above hSystem hGet hReader
    (Relation.ReflTransGen.single hReads) hWire
      (hSystem.firstWire_mem hReader) hReaderOwner
  rw [hOwner] at hEarlier
  injection hEarlier with hSame
  exact hSame ▸ hLe

/-- A hint is resolved by the first constraint that calls for it. -/
theorem isLeast_hint {number : Nat} {hint : Hint p}
    (hGet : system.hints[number]? = some hint) (hWire : wire ∈ hint.wires)
    (hOwner : resolver[wire]? = some owner) :
    IsLeast {node | system.CallsFor resolver number node} owner := by
  constructor
  · obtain ⟨c, hNode, term, hTerm, ⟨hPlain, -⟩ | ⟨target, targetHint, hProducer,
      above, aboveHint, hAbove, hMem, hChain⟩⟩ := h.drawn wire owner hOwner
    · rw [hSystem.hintFor?_eq_some_iff.mpr ⟨hGet, hWire⟩] at hPlain
      cases hPlain
    obtain ⟨rfl, rfl⟩ := hSystem.producer_unique hGet hWire hAbove hMem
    obtain ⟨hTarget, hOutput⟩ := hSystem.hintFor?_eq_some_iff.mp hProducer
    rcases hChain.cases_head with rfl | ⟨reader, hReads, hRest⟩
    · exact Or.inl ⟨targetHint, hTarget, term.wire, hOutput, c, hNode,
        term, hTerm, rfl⟩
    -- The reader is resolved between this hint and the one that the constraint
    -- mentions.
    have ⟨readerHint, _, hReader, _⟩ := hReads
    have hLow :=
      (hSystem.outputs_internal target targetHint hTarget term.wire hOutput).1
    obtain ⟨later, hLater, hTermOwner⟩ :=
      (h.mentions owner c hNode term hTerm).resolve_left (Nat.not_lt.mpr hLow)
    obtain ⟨middle, hMiddle, hReaderOwner⟩ :=
      h.owner_le_of_above hSystem hReader hTarget hRest
        (hSystem.firstWire_mem hReader) hOutput hTermOwner
    have hLe :=
      h.owner_le_of_reads hSystem hGet hWire hOwner hReader hReads hReaderOwner
    obtain rfl : middle = owner := by omega
    exact Or.inr ⟨reader, readerHint, hReader, hReads, hReaderOwner⟩
  · rintro node (⟨hint', hGet', wire', hWire', hMentions⟩ |
      ⟨reader, readerHint, hReader, hReads, hReaderOwner⟩)
    · rw [hGet] at hGet'
      injection hGet' with hSame
      subst hSame
      exact h.owner_le_of_mentions hMentions
        ((h.whole number hint hGet wire' hWire' wire hWire).trans hOwner)
    · exact h.owner_le_of_reads hSystem hGet hWire hOwner hReader hReads
        hReaderOwner

end Coherent

/-! ## The pass finds it -/

/-- The pass comes to constraint `node`, or is at it, and has resolved wires as
`resolver` does. -/
structure ResolvedUpTo (resolver : Std.TreeMap Nat Nat) (node : Nat)
    (current : Std.TreeMap Nat Nat) : Prop where
  agrees : ∀ wire owner : Nat, current[wire]? = some owner →
    resolver[wire]? = some owner
  complete : ∀ wire owner : Nat, resolver[wire]? = some owner → owner < node →
    current[wire]? = some owner

namespace ResolvedUpTo

variable {node : Nat} {state : ResolutionState}

private theorem read (h : ResolvedUpTo resolver node state.resolver)
    (owner : Nat) :
    ResolvedUpTo resolver node (state.read node owner).resolver := by
  unfold ResolutionState.read
  split
  · exact h
  · exact h

private theorem resolve (h : ResolvedUpTo resolver node state.resolver)
    {wires : List Nat} (hOwn : ∀ wire ∈ wires, resolver[wire]? = some node) :
    ResolvedUpTo resolver node (state.resolve node wires).resolver where
  agrees := by
    intro wire owner hOwner
    rw [ResolutionState.resolver_resolve] at hOwner
    split at hOwner
    · next hMem =>
        rw [← hOwner]
        exact hOwn wire hMem
    · exact h.agrees wire owner hOwner
  complete := by
    intro wire owner hOwner hEarlier
    rw [ResolutionState.resolver_resolve, if_neg]
    · exact h.complete wire owner hOwner hEarlier
    · intro hMem
      rw [hOwn wire hMem] at hOwner
      injection hOwner with hOwner
      omega

/-- What is needed at a constraint and has not been resolved is to be resolved
by it. -/
private theorem owner_eq {current : Std.TreeMap Nat Nat}
    (h : ResolvedUpTo resolver node current) {wire : Nat}
    (hNone : current[wire]? = none)
    (hNeeded : ∃ owner ≤ node, resolver[wire]? = some owner) :
    resolver[wire]? = some node := by
  obtain ⟨owner, hLe, hOwner⟩ := hNeeded
  rcases Nat.lt_or_eq_of_le hLe with hEarlier | rfl
  · rw [h.complete wire owner hOwner hEarlier] at hNone
    cases hNone
  · exact hOwner

end ResolvedUpTo

section Pass

variable {node : Nat} {state : ResolutionState} (hSystem : system.WellFormed)
  (hCoherent : system.Coherent resolver)
  (hFed : ∀ wire, ¬ system.Starves resolver node wire)
include hSystem hCoherent hFed

/-- A hint that belongs to the constraint can be resolved. -/
private theorem resolveHint_total {levels number : Nat} {pending : List Nat}
    {hint : Hint p} (hGet : system.hints[number]? = some hint)
    (hOwner : resolver[hint.firstWire]? = some node)
    (hWaiting : system.Waiting number pending)
    (hLevels : pending.length + levels = system.hints.size + 1)
    (hState : ResolvedUpTo resolver node state.resolver) :
    ∃ state', system.resolveHint node levels pending number hint state =
      .ok state' ∧
      ResolvedUpTo resolver node state'.resolver := by
  induction levels generalizing number pending hint state with
  | zero =>
      have hLength := hWaiting.length_le
      omega
  | succ levels ih =>
      have hFirst := hSystem.firstWire_mem hGet
      have hAcc :=
        hCoherent.accessible number hint hGet hint.firstWire hFirst node hOwner
      have hNumber := (Array.getElem?_eq_some_iff.mp hGet).1
      obtain ⟨settled, hFold, hSettled⟩ := foldlM_total
        (f := system.resolveHintTerm node hint.firstWire
          (system.resolveHint node levels (number :: pending)))
        (fun current => ResolvedUpTo resolver node current.resolver)
        (show ResolvedUpTo resolver node ({ state with
          cost := state.cost.chargeHint hint } :
            ResolutionState).resolver from hState)
        (by
          intro term hTerm current hCurrent
          unfold resolveHintTerm
          split
          · exact ⟨current, rfl, hCurrent⟩
          next hInternal =>
          split
          · next owner _ => exact ⟨_, rfl, hCurrent.read owner⟩
          next hNone =>
          have hNeeded :=
            hCoherent.reads number hint hGet hint.firstWire hFirst node
              hOwner term hTerm
          have hTermOwner :=
            hCurrent.owner_eq hNone (hNeeded.resolve_left hInternal)
          split
          · next source sourceHint hProducer =>
              obtain ⟨hSource, hWire⟩ :=
                hSystem.hintFor?_eq_some_iff.mp hProducer
              have hSourceOwner : resolver[sourceHint.firstWire]? = some node :=
                (hCoherent.whole source sourceHint hSource
                  _ (hSystem.firstWire_mem hSource)
                  term.wire hWire).trans hTermOwner
              exact ih hSource hSourceOwner
                (hWaiting.push (hWaiting.notMem hAcc) hNumber
                  ⟨hint, sourceHint, hGet, term, hTerm, hProducer⟩)
                (by rw [List.length_cons]; omega) hCurrent
          · next hPlain =>
              exact absurd ⟨⟨hTermOwner, hPlain⟩, number, hint, hGet, hOwner,
                term, hTerm, rfl⟩ (hFed term.wire))
      refine ⟨settled.resolve node hint.wires, ?_, hSettled.resolve ?_⟩
      · unfold resolveHint
        rw [if_neg (hWaiting.notMem hAcc)]
        dsimp only
        rw [hFold]
      · exact fun wire hWire =>
          (hCoherent.whole number hint hGet wire hWire _ hFirst).trans hOwner

/-- So can every term of the constraint be handled. -/
private theorem resolveTerm_total {c : Constraint}
    (hGet : system.constraints[node]? = some c) {term : Term}
    (hTerm : term ∈ c.terms)
    (hState : ResolvedUpTo resolver node state.resolver) :
    ∃ state', system.resolveTerm node state term = .ok state' ∧
      ResolvedUpTo resolver node state'.resolver := by
  have hCharged : ∀ cost : NodeCost,
      ResolvedUpTo resolver node ({ state with cost } :
        ResolutionState).resolver :=
    fun _ => hState
  unfold resolveTerm
  dsimp only
  split
  · exact ⟨_, rfl, hState⟩
  next hInternal =>
  split
  · next owner _ => exact ⟨_, rfl, (hCharged (state.cost.charge 1)).read owner⟩
  next hNone =>
  have hNeeded :=
    (hCoherent.mentions node c hGet term hTerm).resolve_left hInternal
  have hOwner := hState.owner_eq hNone hNeeded
  split
  · next number hint hProducer =>
      obtain ⟨hHint, hWire⟩ := hSystem.hintFor?_eq_some_iff.mp hProducer
      exact resolveHint_total hSystem hCoherent hFed hHint
        ((hCoherent.whole number hint hHint
          _ (hSystem.firstWire_mem hHint) term.wire hWire).trans hOwner)
        Waiting.start (Nat.zero_add _) (hCharged (state.cost.charge 1))
  · refine ⟨_, rfl,
      (hCharged ((state.cost.charge 1).charge NodeCost.solveWeight)).resolve ?_⟩
    intro wire hWire
    exact List.mem_singleton.mp hWire ▸ hOwner

/-- When its terms have been handled, the constraint has resolved all that is
its own. -/
private theorem resolveTerms_total {c : Constraint}
    (hGet : system.constraints[node]? = some c) {current : Std.TreeMap Nat Nat}
    (hCurrent : ResolverSound system node current)
    (hUpTo : ResolvedUpTo resolver node current) :
    ∃ state,
      c.terms.foldlM (system.resolveTerm node) ⟨current, {}⟩ = .ok state ∧
      ResolverSound system (node + 1) state.resolver ∧
      ResolvedUpTo resolver (node + 1) state.resolver := by
  obtain ⟨state, hFold, hState⟩ := foldlM_total
    (fun state : ResolutionState => ResolvedUpTo resolver node state.resolver)
    (show ResolvedUpTo resolver node (⟨current, {}⟩ : ResolutionState).resolver
      from hUpTo)
    (fun term hTerm _ hState =>
      resolveTerm_total hSystem hCoherent hFed hGet hTerm hState)
  obtain ⟨hConsistent, -, hSettled⟩ :=
    resolveTerms_sound hSystem (hSystem.terms_inRange node c hGet)
      (consistent_start hCurrent) hFold
  refine ⟨state, hFold, hConsistent.toResolverSound, hState.agrees, ?_⟩
  intro wire owner hOwner hLess
  rcases Nat.lt_succ_iff_lt_or_eq.mp hLess with hEarlier | rfl
  · exact hState.complete wire owner hOwner hEarlier
  · obtain ⟨c', hGet', term, hTerm, hDraws⟩ := hCoherent.drawn wire owner hOwner
    rw [hGet] at hGet'
    injection hGet' with hSame
    subst hSame
    have hHandled : term.wire < system.layout.numInputs ∨
        ∃ earlier ≤ owner, state.resolver[term.wire]? = some earlier := by
      refine (hSettled term hTerm).imp_right ?_
      rintro ⟨earlier, hEarlier, -⟩
      exact ⟨earlier,
        Nat.lt_succ_iff.mp (hConsistent.bounded _ _ hEarlier).1, hEarlier⟩
    obtain ⟨earlier, -, hEarlier⟩ :=
      hConsistent.owner_le_of_draws hSystem hDraws
        (hCoherent.bounded wire owner hOwner).2.1 hHandled
    have hAgain := hState.agrees wire earlier hEarlier
    rw [hOwner] at hAgain
    exact hAgain ▸ hEarlier

end Pass

/-- A system with a coherent map goes through the pass, unless a hint reads a
wire for which its own constraint is to be solved. -/
theorem Coherent.exists_resolution (hSystem : system.WellFormed)
    (hCoherent : system.Coherent resolver)
    (hFed : ∀ node wire, ¬ system.Starves resolver node wire) :
    ∃ resolution, system.resolution = .ok resolution := by
  have hFrom :
      ∀ (cs : List Constraint) (node : Nat) (current : Std.TreeMap Nat Nat),
      (∀ (i : Nat) (c : Constraint), cs[i]? = some c →
        system.constraints[node + i]? = some c) →
        ResolverSound system node current → ResolvedUpTo resolver node current →
          ∃ resolution,
            system.resolveFrom node cs current = .ok resolution := by
    intro cs
    induction cs with
    | nil => exact fun _ _ _ _ _ => ⟨_, rfl⟩
    | cons c rest ih =>
        intro node current hGet hCurrent hUpTo
        obtain ⟨state, hFold, hSound, hNext⟩ :=
          resolveTerms_total hSystem hCoherent (hFed node)
            (hGet 0 c rfl) hCurrent hUpTo
        have hRest : ∀ (i : Nat) (c : Constraint), rest[i]? = some c →
            system.constraints[node + 1 + i]? = some c := by
          intro i c hAt
          have hShift : node + 1 + i = node + (i + 1) := by omega
          exact hShift ▸ hGet (i + 1) c hAt
        obtain ⟨later, hLater⟩ :=
          ih (node + 1) state.resolver hRest hSound hNext
        unfold resolveFrom
        rw [hFold]
        dsimp only
        rw [hLater]
        exact ⟨_, rfl⟩
  refine hFrom system.constraints.toList 0 ∅ ?_ resolverSound_empty ?_
  · intro i c hAt
    rw [Nat.zero_add]
    simpa using hAt
  · exact
      { agrees := by
          intro wire owner hOwner
          simp at hOwner
        complete := fun _ _ _ hEarlier => absurd hEarlier (Nat.not_lt_zero _) }

end ValidSystem

end RankOne
