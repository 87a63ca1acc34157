import RankOne.Proofs.Witness.Run

/-!
# What a constraint does not see

When the turn of a constraint comes, the wires that it reads are of two kinds.
Those that it resolves itself are unknown at first, and it sees what it has
written to them. The others have been resolved by constraints of earlier levels
and are known for good. So the outcome of running the constraint, whether it is
a record or a failure, does not depend on what else is known, nor on what other
constraints of its level have written. It does not depend on the schedule
either, which the run of a constraint never consults.
-/

namespace RankOne

variable {p : Nat}

/-- Two solvers with the same functions, for systems that differ in schedule and
digest at most. -/
structure Solver.Alike (solver solver' : Solver p) : Prop where
  system : solver'.system.toValidSystem = solver.system.toValidSystem
  functions : solver'.functions = solver.functions

namespace Solver.Alike

variable {solver solver' : Solver p} (h : solver.Alike solver')
include h

private theorem applyHint (hint : Hint p) (inputs : List (Fp p)) [Modulus p] :
    solver'.applyHint hint inputs = solver.applyHint hint inputs := by
  unfold Solver.applyHint functionOf
  rw [h.functions]

private theorem coefficient (slot : UInt32) [Modulus p] :
    solver'.coefficient slot = solver.coefficient slot := by
  unfold Solver.coefficient
  rw [h.system]

end Solver.Alike

variable [Modulus p]

namespace Solver.Turn

variable {solver solver' : Solver p} {resolution : Resolution} {node : Nat}
  {c : Constraint} {cost : NodeCost} {view view' : View p}
  (hTurn : solver.Turn resolution node c cost view)
  (hTurn' : solver.Turn resolution node c cost view')
  (hGrow : KnownGrow view.known view'.known)
include hTurn hTurn' hGrow

omit [Modulus p] in
/-- A constraint sees the same in both views. -/
theorem get_congr {wire : Nat}
    (hSettled : SettledFor solver.system.toValidSystem resolution.resolver
      cost.dependencies node wire) (progress : Progress p) :
    view'.get progress wire = view.get progress wire := by
  by_cases hOwner : resolution.resolver[wire]? = some node
  · rw [hTurn.get_own hOwner, hTurn'.get_own hOwner]
  · obtain ⟨value, hKnown, hGet⟩ := hTurn.get_other hSettled hOwner
    obtain ⟨value', hKnown', hGet'⟩ := hTurn'.get_other hSettled hOwner
    rw [hGrow wire value hKnown] at hKnown'
    rw [hGet, hGet', Option.some.inj hKnown']

variable (hAlike : solver.Alike solver')
include hAlike

/-! ## Hints -/

private theorem evaluateInput_congr {input : HintInput p}
    (hTerms : ∀ term ∈ input.terms, SettledFor solver.system.toValidSystem
      resolution.resolver cost.dependencies node term.wire)
    (progress : Progress p) :
    solver'.evaluateInput view' progress input =
      solver.evaluateInput view progress input := by
  cases input with
  | constant value => rfl
  | expression terms =>
      refine foldlM_congr (fun term hTerm sum => ?_) 0
      unfold addKnown
      rw [hTurn.get_congr hTurn' hGrow (hTerms term hTerm), hAlike.coefficient]

omit [Modulus p] in
/-- Seeing to a term is the same when running a hint that the constraint
resolves is. -/
private theorem settleTerm_congr {term : Term}
    {run run' : Nat → Hint p → Progress p → Outcome SolveError (Progress p)}
    (hSettled : SettledFor solver.system.toValidSystem resolution.resolver
      cost.dependencies node term.wire)
    (hRun : ∀ (source : Nat) (sourceHint : Hint p),
      solver.system.hints[source]? = some sourceHint →
      (∀ wire ∈ sourceHint.wires, resolution.resolver[wire]? = some node) →
      ∀ progress, run' source sourceHint progress =
      run source sourceHint progress) (progress : Progress p) :
    solver'.settleTerm view' run' progress term =
      solver.settleTerm view run progress term := by
  unfold settleTerm
  rw [hTurn.get_congr hTurn' hGrow hSettled, hAlike.system]
  cases hRead : view.get progress term.wire with
  | error cause => rfl
  | ok read =>
      cases read with
      | some value => rfl
      | none =>
          -- The wire is one that the constraint resolves, and so are all
          -- outputs of its producer.
          obtain ⟨hOwner, -⟩ := hTurn.get_eq_none hSettled hRead
          cases hProducer : solver.system.hintFor? term.wire with
          | none => rfl
          | some producer =>
              obtain ⟨source, sourceHint⟩ := producer
              obtain ⟨hSource, hWire⟩ :=
                hTurn.wellFormed.hintFor?_eq_some_iff.mp hProducer
              exact hRun source sourceHint hSource (fun wire hMem =>
                (hTurn.resolved.whole source sourceHint hSource wire hMem
                  term.wire hWire).trans hOwner) progress

private theorem runHint_congr {levels number : Nat} {hint : Hint p}
    (hGet : solver.system.hints[number]? = some hint)
    (hOwn : ∀ wire ∈ hint.wires, resolution.resolver[wire]? = some node)
    (progress : Progress p) :
    solver'.runHint view' levels number hint progress =
      solver.runHint view levels number hint progress := by
  induction levels generalizing number hint progress with
  | zero => rfl
  | succ levels ih =>
      have hFirst := hTurn.wellFormed.firstWire_mem hGet
      have hFirstOwn := hOwn hint.firstWire hFirst
      have hSettled :=
        hTurn.nodeResolved.hintSettled number hint hGet hint.firstWire
          hFirst hFirstOwn
      have hFold := foldlM_congr (fun term hTerm =>
        hTurn.settleTerm_congr hTurn' hGrow hAlike (hSettled term hTerm)
          (fun source sourceHint hSource hSourceOwn =>
            ih hSource hSourceOwn)) progress
      have hInputs : ∀ settled,
          hint.inputs.mapM (solver'.evaluateInput view' settled) =
          hint.inputs.mapM (solver.evaluateInput view settled) := by
        intro settled
        refine mapM_congr fun input hInput => ?_
        exact hTurn.evaluateInput_congr hTurn' hGrow hAlike (fun term hTerm =>
          hSettled term (List.mem_flatMap.mpr ⟨input, hInput, hTerm⟩)) settled
      rw [runHint_succ, runHint_succ, hFold,
        hTurn.get_congr hTurn' hGrow (Or.inr ⟨node, hFirstOwn, Or.inl rfl⟩)]
      simp only [hInputs, hAlike.applyHint]

private theorem runHintOf_congr {term : Term}
    (hSettled : SettledFor solver.system.toValidSystem resolution.resolver
      cost.dependencies node term.wire) (progress : Progress p) :
    solver'.runHintOf view' progress term =
      solver.runHintOf view progress term := by
  unfold runHintOf
  rw [hAlike.system]
  cases hProducer : solver.system.hintFor? term.wire with
  | none => rfl
  | some producer =>
      obtain ⟨number, hint⟩ := producer
      obtain ⟨hGet, hWire⟩ := hTurn.wellFormed.hintFor?_eq_some_iff.mp hProducer
      by_cases hOwner : resolution.resolver[term.wire]? = some node
      · exact hTurn.runHint_congr hTurn' hGrow hAlike hGet (fun wire hMem =>
          (hTurn.resolved.whole number hint hGet wire hMem term.wire
            hWire).trans hOwner) progress
      · -- Another constraint has run the hint, which both views tell.
        obtain ⟨value, hSeen⟩ :=
          hTurn.get_firstWire progress hProducer hSettled hOwner
        obtain ⟨value', hSeen'⟩ :=
          hTurn'.get_firstWire progress hProducer hSettled hOwner
        dsimp only
        rw [runHint_succ, runHint_succ, hSeen, hSeen']
        rfl

/-! ## Constraints -/

private theorem sumKnown_congr {terms : Expression}
    (hTerms : ∀ term ∈ terms, term ∈ c.terms) (progress : Progress p)
    (constraint : Nat) :
    solver'.sumKnown view' progress constraint terms =
      solver.sumKnown view progress constraint terms := by
  refine foldlM_congr (fun term hTerm partialSum => ?_) _
  unfold addSeen
  rw [hTurn.get_congr hTurn' hGrow
    (hTurn.nodeResolved.settled term (hTerms term hTerm)), hAlike.coefficient]

/-- The outcome of running a constraint in its turn depends neither on the view
nor on the schedule. -/
theorem runConstraint_congr (hGet : solver.system.constraints[node]? = some c) :
    solver'.runConstraint view' node = solver.runConstraint view node := by
  have hHints := foldlM_congr (fun term hTerm =>
    hTurn.runHintOf_congr hTurn' hGrow hAlike
      (hTurn.nodeResolved.settled term hTerm)) {}
  have hSums : ∀ terms ∈ [c.left, c.right, c.output], ∀ progress,
      solver'.sumKnown view' progress node terms =
        solver.sumKnown view progress node terms :=
    fun terms hTerms progress =>
      hTurn.sumKnown_congr hTurn' hGrow hAlike
        (c.mem_terms hTerms) progress node
  unfold runConstraint
  rw [hAlike.system, hGet]
  dsimp only
  rw [hHints]
  simp only [hSums c.left (by simp), hSums c.right (by simp),
    hSums c.output (by simp)]

end Solver.Turn

end RankOne
