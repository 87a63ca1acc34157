import RankOne.Proofs.Schedule.Circles
import RankOne.Proofs.Schedule.ImpliedParents
import RankOne.Proofs.Schedule.Sweep

/-!
# How scheduling ends

A graph to which nodes were added one after the other has older parents only,
whatever was given for them and whether or not parents were left out. That is
all the sweep needs to come to an end at which all nodes are placed. So neither
of the faults of the sweep is ever seen, and a valid system that cannot be
scheduled was given up by the resolution pass, in the middle of a hint.
-/

namespace RankOne

/-! ## Graphs that are built -/

/-- Nodes were added one after the other, with reduction or without. The parents
of each were there before, and were given in any order, once or more often. -/
inductive DependencyGraph.Built : DependencyGraph → Prop
  | empty : DependencyGraph.Built {}
  | addNode {graph : DependencyGraph} {given : List Nat}
      (reduce : Bool) (hBuilt : graph.Built)
      (hOlder : ∀ parent ∈ given, parent < graph.size) :
        (graph.addNode reduce given).Built

theorem DependencyGraph.Built.mirrored {graph : DependencyGraph}
    (h : graph.Built) :
    graph.Mirrored := by
  induction h with
  | empty => exact wellFormed_empty.toMirrored
  | addNode reduce _ hOlder ih => exact addNode_mirrored ih hOlder

private theorem DependencyGraph.ofParents_built {reduce : Bool}
    {parents : List (List Nat)} (h : OlderParents parents) :
    (ofParents reduce parents).Built := by
  induction parents using List.reverseRecOn with
  | nil => exact .empty
  | append_singleton parents given ih =>
      obtain ⟨hRest, -, hOlder⟩ := h.of_append
      rw [ofParents_append]
      exact .addNode reduce (ih hRest) (size_ofParents ▸ hOlder)

/-- Nodes were added one after the other, and the searches for ancestors came to
an end. -/
inductive StampedGraph.Built : StampedGraph → Prop
  | empty : StampedGraph.Built {}
  | addNode {graph next : StampedGraph} {given : List Nat}
      (reduce : Bool) (hBuilt : graph.Built)
      (hOlder : ∀ parent ∈ given, parent < graph.size)
      (hAdd : graph.addNode reduce given = some next) : next.Built

theorem StampedGraph.Built.mirrored {graph : StampedGraph} (h : graph.Built) :
    graph.Mirrored ∧ graph.Fresh := by
  induction h with
  | empty => exact ⟨DependencyGraph.wellFormed_empty.toMirrored, rfl,
    fun node => Nat.le_refl 0⟩
  | addNode reduce _ hOlder hAdd ih =>
      obtain ⟨hGraph, hFresh⟩ := ih
      obtain ⟨kept, stamps, -, -, hKept, hAdd', hNext⟩ :=
        exists_addNode hGraph hFresh reduce _
      rw [hAdd] at hAdd'
      injection hAdd' with hSame
      subst hSame
      refine ⟨DependencyGraph.addNode_mirrored hGraph ?_, hNext⟩
      exact fun parent hParent => hOlder parent (hKept.subset hParent)

/-! ## Where the resolution pass fails -/

namespace ValidSystem

variable {p : Nat} {system : ValidSystem p} {node : Nat} {cause : Fault}

/-- A term needs an output of a hint that no constraint has resolved so far, and
resolving the hint fails. -/
def TermFails (system : ValidSystem p) (node : Nat) (state : ResolutionState)
    (term : Term) (cause : Fault) : Prop :=
  system.layout.numInputs ≤ term.wire ∧ state.resolver[term.wire]? = none ∧
    ∃ number hint, system.hintFor? term.wire = some (number, hint) ∧
      system.resolveHint node (system.hints.size + 1) [] number hint
        { state with cost := state.cost.charge 1 } = .error cause

/-- The pass gets as far as a term of some constraint that fails. -/
def HintFails (system : ValidSystem p) (cause : Fault) : Prop :=
  ∃ earlier c later resolution,
    system.constraints.toList = earlier ++ c :: later ∧
    system.resolveFrom 0 earlier ∅ = .ok resolution ∧
    ∃ before term after state, c.terms = before ++ term :: after ∧
      before.foldlM (system.resolveTerm earlier.length) ⟨resolution.resolver,
        {}⟩ = .ok state ∧
      system.TermFails earlier.length state term cause

private theorem resolveTerm_eq_error {state : ResolutionState} {term : Term} :
    system.resolveTerm node state term = .error cause ↔
      system.TermFails node state term cause := by
  unfold resolveTerm TermFails
  dsimp only
  by_cases hInput : term.wire < system.layout.numInputs
  · rw [if_pos hInput]
    constructor
    · intro h
      cases h
    · exact fun h => absurd hInput (Nat.not_lt.mpr h.1)
  · rw [if_neg hInput]
    cases hOwner : state.resolver[term.wire]? with
    | some owner => simp
    | none =>
        cases hProducer : system.hintFor? term.wire with
        | none => simp
        | some producer =>
            obtain ⟨number, hint⟩ := producer
            simp [Nat.le_of_not_lt hInput]

/-- The pass goes through the terms of the first constraint, and then through
the others. -/
private theorem resolveFrom_cons (c : Constraint) (rest : List Constraint)
    (resolver : Std.TreeMap Nat Nat) :
    system.resolveFrom node (c :: rest) resolver =
      c.terms.foldlM (system.resolveTerm node) ⟨resolver, {}⟩ >>= fun state =>
        system.resolveFrom (node + 1) rest state.resolver >>= fun resolution =>
          pure { resolution with costs := state.cost :: resolution.costs } := by
  rw [resolveFrom]
  cases c.terms.foldlM (system.resolveTerm node) ⟨resolver, {}⟩ with
  | error cause => rfl
  | ok state =>
      dsimp only
      cases hRest : system.resolveFrom (node + 1) rest state.resolver with
      | error cause => simp [bind, Except.bind, hRest]
      | ok resolution => simp [bind, Except.bind, hRest, pure, Except.pure]

/-- The pass fails at the terms of a constraint, after constraints that it got
through. -/
private theorem resolveFrom_eq_error {cs : List Constraint}
    {resolver : Std.TreeMap Nat Nat} :
    system.resolveFrom node cs resolver = .error cause ↔
      ∃ earlier c later resolution, cs = earlier ++ c :: later ∧
        system.resolveFrom node earlier resolver = .ok resolution ∧
        c.terms.foldlM (system.resolveTerm (node + earlier.length))
          ⟨resolution.resolver, {}⟩ =
          .error cause := by
  induction cs generalizing node resolver with
  | nil => simp [resolveFrom]
  | cons first rest ih =>
      constructor
      · intro h
        rw [resolveFrom_cons, bind_eq_error] at h
        rcases h with hFails | ⟨state, hFold, h⟩
        · exact ⟨[], first, rest, ⟨resolver, []⟩, rfl, rfl, hFails⟩
        · have hRest := (bind_eq_error.mp h).resolve_right fun ⟨_, _, hPure⟩ =>
            pure_ne_error hPure
          obtain ⟨earlier, c, later, resolution, rfl, hEarlier, hFails⟩ :=
            ih.mp hRest
          refine ⟨first :: earlier, c, later,
            { resolution with costs := state.cost :: resolution.costs },
                rfl, ?_, ?_⟩
          · rw [resolveFrom_cons]
            exact bind_eq_ok.mpr ⟨state, hFold,
              bind_eq_ok.mpr ⟨resolution, hEarlier, rfl⟩⟩
          · rw [List.length_cons, Nat.add_comm earlier.length 1,
              ← Nat.add_assoc]
            exact hFails
      · rintro ⟨earlier, c, later, resolution, hSplit, hEarlier, hFails⟩
        rw [resolveFrom_cons, bind_eq_error]
        cases earlier with
        | nil =>
            injection hSplit with hHead hTail
            injection hEarlier with hEarlier
            subst hHead hEarlier
            exact Or.inl hFails
        | cons head earlier =>
            injection hSplit with hHead hTail
            subst hHead
            rw [resolveFrom_cons] at hEarlier
            obtain ⟨state, hFold, hEarlier⟩ := bind_eq_ok.mp hEarlier
            obtain ⟨resolution', hEarlier, hResolution⟩ :=
              bind_eq_ok.mp hEarlier
            rw [← pure_eq_ok.mp hResolution, List.length_cons,
              Nat.add_comm earlier.length 1, ← Nat.add_assoc] at hFails
            refine Or.inr ⟨state, hFold, bind_eq_error.mpr (Or.inl (ih.mpr ?_))⟩
            exact ⟨earlier, c, later, resolution', hTail, hEarlier, hFails⟩

/-- The pass fails in a hint, and nowhere else. -/
theorem resolution_eq_error :
    system.resolution = .error cause ↔ system.HintFails cause := by
  unfold resolution HintFails
  simp only [resolveFrom_eq_error, foldlM_eq_error, resolveTerm_eq_error,
    Nat.zero_add]

end ValidSystem

/-! ## What is left to fail -/

/-- The sweep of a graph to which nodes were added one after the other, with the
walk or with searches, comes to an end at which all nodes are placed; and the
searches for a further node come to an end, too. The constraints of a valid
system read its own wires only, and make up such a graph. So whatever the
settings, the system can be scheduled, unless resolving one of its hints
fails. -/
theorem Schedule.sweep_never_fails :
    (∀ graph : DependencyGraph, graph.Built → graph.SweptOut) ∧
    (∀ graph : StampedGraph, graph.Built → graph.SweptOut ∧
      ∀ reduce given, (∀ parent ∈ given, parent < graph.size) →
        ∃ next, graph.addNode reduce given = some next) ∧
    ∀ (p : Nat) (flat : FlatSystem p) (system : ValidSystem p),
      flat.validate = .ok system →
      (∀ (number : Nat) (c : Constraint), system.constraints[number]? = some c →
        ∀ term ∈ c.terms, term.wire < system.layout.numWires) ∧
      ∀ settings : SchedulerSettings,
        (∀ resolution, system.resolution = .ok resolution →
          (DependencyGraph.ofParents settings.reduceTransitiveEdges
            (resolution.costs.map NodeCost.dependencies)).Built) ∧
        ∀ cause, ofSystem settings system = .error cause ↔
          system.HintFails cause := by
  refine ⟨fun graph hBuilt => hBuilt.mirrored.sweptOut,
    fun graph hBuilt => ?_, ?_⟩
  · obtain ⟨hGraph, hFresh⟩ := hBuilt.mirrored
    refine ⟨hGraph.sweptOut, fun reduce given _ => ?_⟩
    obtain ⟨_, _, _, -, -, hAdd, -⟩ :=
      StampedGraph.exists_addNode hGraph hFresh reduce given
    exact ⟨_, hAdd⟩
  · intro p flat system hValid
    obtain ⟨-, hSystem⟩ := FlatSystem.validate_wellFormed hValid
    refine ⟨fun number c hGet term hTerm =>
      (hSystem.terms_inRange number c hGet term hTerm).1, fun settings => ?_⟩
    have hBuilt : ∀ resolution, system.resolution = .ok resolution →
        (DependencyGraph.ofParents settings.reduceTransitiveEdges
          (resolution.costs.map NodeCost.dependencies)).Built :=
      fun resolution hResolution =>
        DependencyGraph.ofParents_built (olderParents_costs hSystem hResolution)
    refine ⟨hBuilt, fun cause => ?_⟩
    rw [← ValidSystem.resolution_eq_error]
    unfold ofSystem
    cases hResolution : system.resolution with
    | error other => simp
    | ok resolution =>
        obtain ⟨levels, hLevels⟩ :=
          (hBuilt resolution hResolution).mirrored.levels_total
        simp [ofCosts, hLevels]

/-- Four nodes, of which the second and the last are added without reduction.
The third is given the first node twice and the second in between, and the last
has its parents in increasing order. -/
def mixedGraph : DependencyGraph :=
  ((((({} : DependencyGraph).addNode true []).addNode false []).addNode true [0,
    1, 0]).addNode false [1, 2])

/-- The wires are one and the internal `b` and `y`, and `b` says whether `y` is
zero. The first constraint, `b · 1 = 0`, needs `b`, and only the second,
`y · 1 = b`, can be solved for `y`. -/
def prematureSystem : FlatSystem 17 where
  layout := ⟨1, 0, 2⟩
  constraints := #[⟨[⟨0, 1⟩], [⟨0, 0⟩], []⟩, ⟨[⟨0, 2⟩], [⟨0, 0⟩], [⟨0, 1⟩]⟩]
  coefficients := #[1]
  hints := #[⟨.isZero, [.expression [⟨0, 2⟩]], [1]⟩]

/-- The mixed graph is swept out, and the premature system fails in its hint. -/
theorem Schedule.sweep_never_fails_premature :
    mixedGraph.SweptOut ∧ mixedGraph.levels = .ok [[0, 1], [2], [3]] ∧
    (∃ graph, StampedGraph.addNode true {} [] = some graph ∧ graph.SweptOut ∧
      ∃ next, graph.addNode true [0, 0] = some next) ∧
    ∃ system, prematureSystem.validate = .ok system ∧
      ofSystem ⟨0, true⟩ system = .error (.hintReadsUnresolved 1 2) ∧
      system.HintFails (.hintReadsUnresolved 1 2) := by
  obtain ⟨hGraphs, hStamped, hSystems⟩ := sweep_never_fails
  refine ⟨?_, by decide +kernel, ?_, ?_⟩
  · exact hGraphs mixedGraph
      (.addNode false (.addNode true (.addNode false (.addNode true .empty
        (by decide)) (by decide)) (by decide)) (by decide))
  · obtain ⟨-, hAdd⟩ := hStamped {} .empty
    obtain ⟨graph, hGraph⟩ := hAdd true [] (by simp)
    obtain ⟨hSwept, hNext⟩ :=
      hStamped graph (.addNode true .empty (by simp) hGraph)
    have hOlder : ∀ parent ∈ [0, 0], parent < graph.size := by
      injection hGraph with hGraph
      subst hGraph
      decide
    exact ⟨graph, hGraph, hSwept, hNext true [0, 0] hOlder⟩
  · have hRun : (prematureSystem.validate.toOption.any fun system =>
        decide (ofSystem ⟨0, true⟩ system =
          .error (.hintReadsUnresolved 1 2))) = true := by
      decide +kernel
    simp only [Option.any_eq_true, toOption_eq_some, decide_eq_true_eq] at hRun
    obtain ⟨system, hValid, hFails⟩ := hRun
    exact ⟨system, hValid, hFails,
      (((hSystems 17 prematureSystem system hValid).2 ⟨0, true⟩).2 _).mp hFails⟩

end RankOne
