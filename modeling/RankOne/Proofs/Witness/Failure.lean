import RankOne.Proofs.Witness.Forced
import RankOne.Proofs.Witness.Solvability
import RankOne.Proofs.Witness.Soundness

/-!
# Why a run fails

A run on inputs of the right numbers never faults: every wire and every
coefficient that is looked up is there, and hints do not read each other in a
circle. So it ends with an error that some constraint reports, and the error is
one of two kinds. Either one of the obstacles stands against solving the
constraint, whatever the inputs may be or for every assignment that is left; or
no assignment is left: none that agrees with the inputs satisfies the system.
-/

namespace RankOne

variable {p : Nat} [Modulus p]

/-! ## Explanations -/

namespace Solver

/-- A full assignment satisfies the system and agrees with what is known and
what has been written. -/
def Fits (solver : Solver p) (known : Array (Option (Fp p)))
    (writes : List (Nat × Fp p)) (wires : Array (Fp p)) : Prop :=
  solver.Satisfies wires ∧ Assigns wires known writes

/-- What stands behind the failure of constraint `node`, if the assignments that
are left are `Possible`. -/
def Explained (solver : Solver p) (resolver : Std.TreeMap Nat Nat) (node : Nat)
    (c : Constraint) (Possible : Array (Fp p) → Prop) :
    Failure SolveError → Prop
  | .reported (.unresolvedWire wire) => solver.system.Starves resolver node wire
  | .reported (.multipleUnknowns _) => solver.system.Crowded resolver node c
  | .reported (.unsolvableDivision _ _) =>
      ∀ wires, Possible wires → solver.system.Degenerate resolver node wires c
  | .reported (.unsatisfied _) => ∀ wires, ¬ Possible wires
  | .reported (.missingHint _) => ∀ wires, ¬ Possible wires
  | .reported (.hintFailed _ _) => ∀ wires, ¬ Possible wires
  | .reported (.inputCountMismatch _ _ _) => False
  | .fault _ => False

/-- When fewer assignments are left, an explanation still holds. -/
private theorem Explained.mono {solver : Solver p}
    {resolver : Std.TreeMap Nat Nat} {node : Nat} {c : Constraint}
    {Possible Possible' : Array (Fp p) → Prop} {failure : Failure SolveError}
    (h : solver.Explained resolver node c Possible failure)
    (hFewer : ∀ wires, Possible' wires → Possible wires) :
    solver.Explained resolver node c Possible' failure := by
  unfold Explained at h ⊢
  split at h
  · exact h
  · exact h
  · exact fun wires hWires => h wires (hFewer wires hWires)
  · exact fun wires hWires => h wires (hFewer wires hWires)
  · exact fun wires hWires => h wires (hFewer wires hWires)
  · exact fun wires hWires => h wires (hFewer wires hWires)
  · exact h
  · exact h

/-! ## Inputs and functions of hints -/

variable {solver : Solver p} {view : View p} {progress : Progress p}

/-- An input whose wires and coefficients can be looked up has no value only
when one of its wires is unknown. -/
private theorem evaluateInput_eq_error {input : HintInput p}
    {failure : Failure SolveError}
    (hTerms : ∀ term ∈ input.terms, solver.system.TermInRange term)
    (hReads : ∀ term ∈ input.terms, ∃ read,
      view.get progress term.wire = .ok read)
    (h : solver.evaluateInput view progress input = .error failure) :
    ∃ term ∈ input.terms, failure = .reported (.unresolvedWire term.wire) ∧
      view.get progress term.wire = .ok none := by
  cases input with
  | constant value => cases h
  | expression terms =>
      obtain ⟨term, hTerm, sum, -, hFails⟩ := foldlM_error_step (fun _ => True)
        (show terms.foldlM (solver.addKnown view progress) 0 = .error failure
          from h) trivial
        (fun _ _ _ _ _ _ => trivial)
      obtain ⟨coefficient, hCoefficient, -⟩ :=
        exists_coefficient (hTerms term hTerm)
      obtain ⟨read, hRead⟩ := hReads term hTerm
      unfold addKnown at hFails
      rw [hRead] at hFails
      cases read with
      | none =>
          injection hFails with hFails
          exact ⟨term, hTerm, hFails.symm, hRead⟩
      | some value =>
          rw [hCoefficient] at hFails
          cases hFails

private theorem applyHint_eq_error {hint : Hint p} {inputs : List (Fp p)}
    {e : SolveError} (h : solver.applyHint hint inputs = .error e) :
    (∃ missing, e = .missingHint missing) ∨
      ∃ cause, e = .hintFailed hint.firstWire cause := by
  unfold applyHint at h
  split at h
  · next cause hFunction =>
      injection h with h
      subst h
      unfold functionOf at hFunction
      split at hFunction
      · cases hFunction
      · cases hFunction
      · split at hFunction
        · cases hFunction
        · injection hFunction with hFunction
          exact Or.inl ⟨_, hFunction.symm⟩
  · split at h
    · next cause _ =>
        injection h with h
        exact Or.inr ⟨cause, h.symm⟩
    · cases h

/-- Seeing to what a hint reads excludes no assignment. -/
private theorem Fits.settle {levels : Nat} {terms : List Term}
    {settled : Progress p} {wires : Array (Fp p)}
    (hFits : solver.Fits view.known (progress.writes ++ view.recent) wires)
    (h : terms.foldlM (solver.settleTerm view (solver.runHint view levels))
      progress = .ok settled) :
    solver.Fits view.known (settled.writes ++ view.recent) wires :=
  ⟨hFits.1, settle_forced
    (fun _ _ _ _ hSource hCurrent hNext =>
      runHint_forced hFits.1 hSource hCurrent hNext)
    hFits.2 h⟩

/-- When the function of a hint does not yield outputs, no assignment is
left. -/
private theorem not_fits_of_applyHint {number : Nat} {hint : Hint p}
    {inputs : List (Fp p)} {e : SolveError}
    (hGet : solver.system.hints[number]? = some hint)
    (hInputs : hint.inputs.mapM (solver.evaluateInput view progress) =
      .ok inputs)
    (h : solver.applyHint hint inputs = .error e) (wires : Array (Fp p)) :
    ¬ solver.Fits view.known (progress.writes ++ view.recent) wires := by
  intro hFits
  obtain ⟨inputs', outputs', hInputs', hOutputs', -⟩ :=
    hFits.1.hints number hint hGet
  rw [(mapM_evaluateInput_sound hInputs).2 wires
    fun term _ => hFits.2.reads term.wire] at hInputs'
  injection hInputs' with hSame
  rw [← hSame, h] at hOutputs'
  cases hOutputs'

end Solver

/-! ## Hints -/

namespace Solver.Turn

variable {solver : Solver p} {resolution : Resolution} {node : Nat}
  {c : Constraint} {cost : NodeCost} {view : View p}
  (hTurn : solver.Turn resolution node c cost view)
include hTurn

/-- Seeing to what a hint reads fails at a hint that the constraint resolves as
well, and no assignment has been excluded until then. -/
private theorem settle_failure {levels number : Nat} {hint : Hint p}
    {progress : Progress p} {failure : Failure SolveError}
    (hGet : solver.system.hints[number]? = some hint)
    (hOwn : ∀ wire ∈ hint.wires, resolution.resolver[wire]? = some node)
    (hValid : progress.Valid solver resolution node view)
    (h : hint.terms.foldlM
      (solver.settleTerm view (solver.runHint view levels)) progress =
        .error failure) :
    ∃ term ∈ hint.terms, ∃ source sourceHint, ∃ current : Progress p,
      solver.system.hintFor? term.wire = some (source, sourceHint) ∧
      (∀ wire ∈ sourceHint.wires, resolution.resolver[wire]? = some node) ∧
      current.Valid solver resolution node view ∧
      (∀ wires,
        solver.Fits view.known (progress.writes ++ view.recent) wires →
        solver.Fits view.known (current.writes ++ view.recent) wires) ∧
      solver.runHint view levels source sourceHint current =
        .error failure := by
  have hFirst := hTurn.wellFormed.firstWire_mem hGet
  have hSettledFor :=
    hTurn.nodeResolved.hintSettled number hint hGet hint.firstWire hFirst
      (hOwn hint.firstWire hFirst)
  have hRuns :
      RunsSource solver resolution node view (solver.runHint view levels) :=
    fun _ _ _ _ hSource hSourceOwn hCurrent hNext =>
      hTurn.runHint_sound hSource hSourceOwn hCurrent hNext
  obtain ⟨term, hTerm, current, ⟨hCurrent, hKeep⟩, hFails⟩ :=
    foldlM_error_step
      (fun current => current.Valid solver resolution node view ∧
        ∀ wires,
          solver.Fits view.known (progress.writes ++ view.recent) wires →
          solver.Fits view.known (current.writes ++ view.recent) wires)
      h ⟨hValid, fun _ hFits => hFits⟩ (by
        rintro term hTerm current next ⟨hCurrent, hKeep⟩ hNext
        have hSingle : [term].foldlM
            (solver.settleTerm view (solver.runHint view levels)) current =
              .ok next := by
          rw [List.foldlM_cons, hNext]
          rfl
        obtain ⟨hSettling, -⟩ := hTurn.settle_sound hRuns hGet hOwn
          (fun _ hMem =>
            (List.mem_singleton.mp hMem).symm ▸ hTerm) hCurrent hSingle
        exact ⟨hSettling.valid,
          fun wires hFits => (hKeep wires hFits).settle hSingle⟩)
  rcases settleTerm_eq_error hFails with
    ⟨cause, hRead⟩ | ⟨source, sourceHint, hProducer, hUnseen, hFails⟩
  · obtain ⟨read, hRead'⟩ := hTurn.exists_get current (hSettledFor term hTerm)
    rw [hRead] at hRead'
    cases hRead'
  · obtain ⟨hSource, hWire⟩ :=
      hTurn.wellFormed.hintFor?_eq_some_iff.mp hProducer
    obtain ⟨hOwner, -⟩ := hTurn.get_eq_none (hSettledFor term hTerm) hUnseen
    have hSourceOwn : ∀ wire ∈ sourceHint.wires,
        resolution.resolver[wire]? = some node := fun wire hMem =>
      (hTurn.resolved.whole source sourceHint hSource wire hMem term.wire
        hWire).trans hOwner
    exact ⟨term, hTerm, source, sourceHint, current, hProducer, hSourceOwn,
      hCurrent, hKeep, hFails⟩

/-- When all that a hint reads has been seen to, an input without a value reads
a wire for which the constraint is to be solved. -/
private theorem starves_of_inputs {levels number : Nat} {hint : Hint p}
    {progress settled : Progress p} {failure : Failure SolveError}
    (hGet : solver.system.hints[number]? = some hint)
    (hOwn : ∀ wire ∈ hint.wires, resolution.resolver[wire]? = some node)
    (hValid : progress.Valid solver resolution node view)
    (hFold : hint.terms.foldlM
      (solver.settleTerm view (solver.runHint view levels)) progress =
        .ok settled)
    (h : hint.inputs.mapM (solver.evaluateInput view settled) =
      .error failure) :
    ∃ wire, failure = .reported (.unresolvedWire wire) ∧
      solver.system.Starves resolution.resolver node wire := by
  have hFirst := hTurn.wellFormed.firstWire_mem hGet
  have hFirstOwner := hOwn hint.firstWire hFirst
  have hSettledFor :=
    hTurn.nodeResolved.hintSettled number hint hGet hint.firstWire hFirst
      hFirstOwner
  obtain ⟨-, hProduced⟩ := hTurn.settle_sound
    (fun _ _ _ _ hSource hSourceOwn hCurrent hNext =>
      hTurn.runHint_sound hSource hSourceOwn hCurrent hNext)
    hGet hOwn (fun _ hTerm => hTerm) hValid hFold
  obtain ⟨input, hInput, hFails⟩ := mapM_error_step h
  have hMem : ∀ term ∈ input.terms, term ∈ hint.terms :=
    fun term hTerm => List.mem_flatMap.mpr ⟨input, hInput, hTerm⟩
  obtain ⟨term, hTerm, rfl, hUnseen⟩ := evaluateInput_eq_error
    (fun term hTerm =>
      hTurn.wellFormed.hintTerms_inRange number hint hGet term
        (hMem term hTerm))
    (fun term hTerm =>
      hTurn.exists_get settled (hSettledFor term (hMem term hTerm))) hFails
  obtain ⟨hOwner, hUnwritten⟩ :=
    hTurn.get_eq_none (hSettledFor term (hMem term hTerm)) hUnseen
  -- A hint that produces the wire would have been run.
  have hPlain : solver.system.hintFor? term.wire = none := by
    by_contra hProducer
    have hWritten := hProduced term (hMem term hTerm) hOwner hProducer
    rw [hUnwritten] at hWritten
    cases hWritten
  exact ⟨term.wire, rfl, ⟨hOwner, hPlain⟩, number, hint, hGet, hFirstOwner,
    term, hMem term hTerm, rfl⟩

/-- A hint that the constraint resolves fails because it, or a hint above it,
reads a wire for which the constraint is to be solved, or because its function
does not yield what the assignments that are left give to its outputs. -/
private theorem runHint_failure {levels number : Nat} {hint : Hint p}
    {progress : Progress p} {pending : List Nat} {failure : Failure SolveError}
    (hGet : solver.system.hints[number]? = some hint)
    (hOwn : ∀ wire ∈ hint.wires, resolution.resolver[wire]? = some node)
    (hValid : progress.Valid solver resolution node view)
    (hWaiting : solver.system.Waiting number pending)
    (hLevels : pending.length + levels = solver.system.hints.size + 1)
    (h : solver.runHint view levels number hint progress = .error failure) :
    solver.Explained resolution.resolver node c
      (solver.Fits view.known (progress.writes ++ view.recent)) failure := by
  induction levels generalizing number hint progress pending with
  | zero =>
      have hLength := hWaiting.length_le
      omega
  | succ levels ih =>
      have hFirst := hTurn.wellFormed.firstWire_mem hGet
      have hFirstOwner := hOwn hint.firstWire hFirst
      rcases runHint_eq_error h with ⟨cause, hRead⟩ | ⟨-, hFold |
        ⟨settled, hFold, hInputs | ⟨inputs, e, hInputs, rfl, hApply⟩⟩⟩
      · rw [hTurn.get_own hFirstOwner] at hRead
        cases hRead
      · -- A hint that it reads has failed: the explanation is found there.
        obtain ⟨term, hTerm, source, sourceHint, current, hProducer,
          hSourceOwn, hCurrent, hKeep, hFails⟩ :=
          hTurn.settle_failure hGet hOwn hValid hFold
        obtain ⟨hSource, -⟩ :=
          hTurn.wellFormed.hintFor?_eq_some_iff.mp hProducer
        have hAcc :=
          hTurn.resolved.accessible number hint hGet hint.firstWire hFirst
            node hFirstOwner
        have hNumber := (Array.getElem?_eq_some_iff.mp hGet).1
        have hNext := hWaiting.push (hWaiting.notMem hAcc) hNumber
          ⟨hint, sourceHint, hGet, term, hTerm, hProducer⟩
        exact (ih hSource hSourceOwn hCurrent hNext
          (by rw [List.length_cons]; omega) hFails).mono hKeep
      · obtain ⟨wire, rfl, hStarves⟩ :=
          hTurn.starves_of_inputs hGet hOwn hValid hFold hInputs
        exact hStarves
      · have hNone : ∀ wires, ¬ solver.Fits view.known
            (progress.writes ++ view.recent) wires := fun wires hFits =>
          not_fits_of_applyHint hGet hInputs hApply wires (hFits.settle hFold)
        rcases applyHint_eq_error hApply with ⟨missing, rfl⟩ | ⟨cause, rfl⟩
        · exact hNone
        · exact hNone

private theorem runHintOf_failure {term : Term} {progress : Progress p}
    {failure : Failure SolveError} (hTerm : term ∈ c.terms)
    (hValid : progress.Valid solver resolution node view)
    (h : solver.runHintOf view progress term = .error failure) :
    solver.Explained resolution.resolver node c
      (solver.Fits view.known (progress.writes ++ view.recent)) failure := by
  unfold runHintOf at h
  split at h
  · next number hint hProducer =>
      obtain ⟨hGet, hWire⟩ := hTurn.wellFormed.hintFor?_eq_some_iff.mp hProducer
      have hWhole := hTurn.resolved.whole number hint hGet
      by_cases hOwner : resolution.resolver[term.wire]? = some node
      · exact hTurn.runHint_failure hGet
          (fun wire hMem =>
            (hWhole wire hMem term.wire hWire).trans hOwner) hValid
          ValidSystem.Waiting.start (Nat.zero_add _) h
      · -- Another constraint has run the hint: its outputs are known, and
        -- nothing can fail.
        obtain ⟨value, hSeen⟩ := hTurn.get_firstWire progress hProducer
          (hTurn.nodeResolved.settled term hTerm) hOwner
        rcases runHint_eq_error h with ⟨cause, hRead⟩ | ⟨hRead, -⟩
        · rw [hSeen] at hRead
          cases hRead
        · rw [hSeen] at hRead
          injection hRead with hRead
          cases hRead
  · cases h

/-! ## Constraints -/

/-- When the hints of a constraint fail, one of them has met an obstacle, or no
assignment is left. -/
private theorem runHints_failure {failure : Failure SolveError}
    (h : c.terms.foldlM (solver.runHintOf view) {} = .error failure) :
    solver.Explained resolution.resolver node c
      (solver.Fits view.known view.recent) failure := by
  obtain ⟨term, hTerm, current, ⟨hCurrent, hKeep⟩, hFails⟩ :=
    foldlM_error_step
      (fun current : Progress p => current.Valid solver resolution node view ∧
        ∀ wires, solver.Fits view.known view.recent wires →
          solver.Fits view.known (current.writes ++ view.recent) wires)
      h ⟨Progress.Valid.start, fun _ hFits => hFits⟩ (by
        rintro term hTerm current next ⟨hCurrent, hKeep⟩ hNext
        exact ⟨(hTurn.runHintOf_sound
          (hTurn.nodeResolved.settled term hTerm) hCurrent hNext).1,
          fun wires hFits =>
            ⟨hFits.1, runHintOf_forced hFits.1 (hKeep wires hFits).2 hNext⟩⟩)
  exact (hTurn.runHintOf_failure hTerm hCurrent hFails).mono hKeep

/-- When the equation does not depend on the wire that is left open, the
constraint is degenerate. -/
private theorem degenerate_of_sums {progress : Progress p}
    {left right output : PartialSum p} {wires : Array (Fp p)}
    (hRun : HintsRun solver resolution node c view progress)
    (hLeft : solver.sumKnown view progress node c.left = .ok left)
    (hRight : solver.sumKnown view progress node c.right = .ok right)
    (hOutput : solver.sumKnown view progress node c.output = .ok output)
    (hReads : ∀ wire, view.Reads progress wires wire)
    (h : left.unknown.isSome ∧
        (left.folded = 0 ∨ right.unknown = none ∧ right.sum = 0) ∨
      right.unknown.isSome ∧
        (right.folded = 0 ∨ left.unknown = none ∧ left.sum = 0) ∨
      output.unknown.isSome ∧ output.folded = 0) :
    solver.system.Degenerate resolution.resolver node wires c := by
  have hLeftTerms : ∀ term ∈ c.left, term ∈ c.terms := c.mem_terms (by simp)
  have hRightTerms : ∀ term ∈ c.right, term ∈ c.terms := c.mem_terms (by simp)
  have hOutputTerms : ∀ term ∈ c.output, term ∈ c.terms := c.mem_terms (by simp)
  rw [hTurn.isSome_unknown_iff hLeftTerms hRun hLeft,
    hTurn.isSome_unknown_iff hRightTerms hRun hRight,
    hTurn.isSome_unknown_iff hOutputTerms hRun hOutput,
    hTurn.folded_eq hLeftTerms hRun hLeft,
    hTurn.folded_eq hRightTerms hRun hRight,
    hTurn.folded_eq hOutputTerms hRun hOutput] at h
  rcases h with ⟨hOpen, hZero | ⟨hClosed, hZero⟩⟩ |
    ⟨hOpen, hZero | ⟨hClosed, hZero⟩⟩ | hOutputZero
  · exact Or.inl ⟨hOpen, Or.inl hZero⟩
  · exact Or.inl ⟨hOpen, Or.inr (hZero ▸
      (sumKnown_sound hRight).evaluate_of_closed
        (fun term _ => hReads term.wire) hClosed)⟩
  · exact Or.inr (Or.inl ⟨hOpen, Or.inl hZero⟩)
  · exact Or.inr (Or.inl ⟨hOpen, Or.inr (hZero ▸
      (sumKnown_sound hLeft).evaluate_of_closed
        (fun term _ => hReads term.wire) hClosed)⟩)
  · exact Or.inr (Or.inr hOutputZero)

/-- A constraint that fails when its turn comes has met an obstacle, or no
assignment is left. -/
theorem runConstraint_failure [Fact p.Prime] {failure : Failure SolveError}
    (hGet : solver.system.constraints[node]? = some c)
    (h : solver.runConstraint view node = .error failure) :
    solver.Explained resolution.resolver node c
      (solver.Fits view.known view.recent) failure := by
  rcases runConstraint_eq_error hGet h with hHints | ⟨progress, hHints, h⟩
  · exact hTurn.runHints_failure hHints
  have hRun := hTurn.hintsRun hHints
  have hForced : ∀ wires, solver.Fits view.known view.recent wires →
      Assigns wires view.known (progress.writes ++ view.recent) := by
    intro wires hFits
    have hStart :
        Assigns wires view.known (({} : Progress p).writes ++ view.recent) :=
      hFits.2
    exact runHints_forced hFits.1 hStart hHints
  rcases h with ⟨terms, hMem, hFails⟩ |
    ⟨left, right, output, e, hLeft, hRight, hOutput, rfl, hSolve⟩
  · obtain ⟨rfl, hTwice⟩ :=
      hTurn.sumKnown_failure (c.mem_terms hMem) hRun hGet hFails
    exact Or.inl ⟨terms, hMem, hTwice⟩
  rcases PartialSum.solve_eq_error hSolve
    with hIsolate | ⟨rfl, write, row, hIsolate, hViolated⟩
  · rcases PartialSum.isolate_eq_error hIsolate
      with ⟨rfl, hBoth⟩ | ⟨⟨wire, rfl⟩, hZero⟩
    · rw [hTurn.isSome_unknown_iff (c.mem_terms (by simp)) hRun hLeft,
        hTurn.isSome_unknown_iff (c.mem_terms (by simp)) hRun hRight,
        hTurn.isSome_unknown_iff (c.mem_terms (by simp)) hRun hOutput] at hBoth
      exact Or.inr hBoth
    · exact fun wires hFits => hTurn.degenerate_of_sums hRun hLeft hRight
        hOutput (fun wire => (hForced wires hFits).reads wire) hZero
  · intro wires hFits
    obtain ⟨value, hHolds, -⟩ :=
      totals_of_satisfies hFits.1 (hForced wires hFits) hGet
        (sumKnown_sound hLeft) (sumKnown_sound hRight)
          (sumKnown_sound hOutput) hIsolate
    rw [(PartialSum.isolate_forced hIsolate hHolds).1] at hViolated
    exact hViolated hHolds

end Solver.Turn

/-! ## Runs -/

namespace Solver

variable [Fact p.Prime] {solver : Solver p} {resolution : Resolution}

/-- A task whose constraints are all run in their turn fails by one of them. -/
theorem runTask_failure {known : Array (Option (Fp p))}
    {recent : List (Nat × Fp p)} {nodes : List Nat}
    {failure : Failure SolveError} (hNodup : nodes.Nodup)
    (hTurns : ∀ node ∈ nodes, ∃ c cost, solver.system.constraints[node]? =
      some c ∧ solver.Turn resolution node c cost { known })
    (hRecent : ∀ node ∈ nodes, ∀ wire : Nat,
      resolution.resolver[wire]? = some node → recent.lookup wire = none)
    (h : (solver.runTask ⟨known, recent⟩ nodes).failure = some failure) :
    ∃ node c, solver.system.constraints[node]? = some c ∧
      solver.Explained resolution.resolver node c
        (solver.Fits known recent) failure := by
  induction nodes generalizing recent with
  | nil => cases h
  | cons node rest ih =>
      obtain ⟨hNode, hRest⟩ := List.nodup_cons.mp hNodup
      obtain ⟨c, cost, hGet, hTurn⟩ := hTurns node List.mem_cons_self
      have hHere := hTurn.withRecent (hRecent node List.mem_cons_self)
      unfold runTask at h
      split at h
      · next cause hFails =>
          injection h with h
          subst h
          exact ⟨node, c, hGet, hHere.runConstraint_failure hGet hFails⟩
      next step hStep =>
      obtain ⟨hConstraint, hSound⟩ := hHere.runConstraint_sound hGet hStep
      have hNextRecent : ∀ other ∈ rest, ∀ wire : Nat,
          resolution.resolver[wire]? = some other →
          (step.writes ++ recent).lookup wire = none := by
        intro other hOther wire hOwner
        rw [List.lookup_append,
          hRecent other (List.mem_cons_of_mem _ hOther) wire hOwner,
          Option.or_none]
        exact hSound.unwritten hOwner fun hSame =>
          hNode (hConstraint ▸ hSame ▸ hOther)
      obtain ⟨later, c', hGet', hExplained⟩ := ih hRest
        (fun other hOther =>
          hTurns other (List.mem_cons_of_mem _ hOther)) hNextRecent h
      refine ⟨later, c', hGet', hExplained.mono ?_⟩
      rintro wires ⟨hSatisfies, hAssigns⟩
      exact ⟨hSatisfies, runConstraint_forced hSatisfies hAssigns hStep⟩

/-- What may end a run of levels whose tasks run side by side: in the first
level with a task that fails, the failure of any task that does. -/
inductive MayFail (solver : Solver p) :
    List Level → Array (Option (Fp p)) → Failure SolveError → Prop
  | here {level : Level} {rest : List Level} {known : Array (Option (Fp p))}
      {failure : Failure SolveError} {task : Task} (hTask : task ∈ level.tasks)
      (hFails : (solver.runTask { known } task.nodes).failure = some failure) :
      MayFail solver (level :: rest) known failure
  | later {level : Level} {rest : List Level} {known : Array (Option (Fp p))}
      {failure : Failure SolveError} {runs : List (TaskRun p)}
      (hRuns : runs = level.tasks.map fun task =>
        solver.runTask { known } task.nodes)
      (hNone : ∀ run ∈ runs, run.failure = none)
      (hRest : MayFail solver rest
        ((runs.flatMap TaskRun.steps).foldl commitStep known) failure) :
      MayFail solver (level :: rest) known failure

omit [Fact p.Prime] in
/-- The failure of the first task that fails is one of those that may end a
run. -/
private theorem mayFail_runLevels {levels : List Level}
    {known : Array (Option (Fp p))} {failure : Failure SolveError}
    (h : (solver.runLevels levels known).failure = some failure) :
    solver.MayFail levels known failure := by
  induction levels generalizing known with
  | nil => cases h
  | cons level rest ih =>
      unfold runLevels at h
      dsimp only at h
      split at h
      · next cause hFails =>
          injection h with h
          subst h
          obtain ⟨run, hRun, hFails⟩ := List.exists_of_findSome?_eq_some hFails
          obtain ⟨task, hTask, rfl⟩ := List.mem_map.mp hRun
          exact .here hTask hFails
      · next hNone =>
          exact .later rfl (List.findSome?_eq_none_iff.mp hNone) (ih h)

namespace MayFail

omit [Fact p.Prime] in
/-- Where something may end a run, something does, whatever task comes first. -/
private theorem exists_failure {levels : List Level}
    {known : Array (Option (Fp p))} {failure : Failure SolveError}
    (h : solver.MayFail levels known failure) :
    ∃ first, (solver.runLevels levels known).failure = some first := by
  induction h with
  | @here level rest known failure task hTask hFails =>
      unfold runLevels
      dsimp only
      split
      · next first _ => exact ⟨first, rfl⟩
      · next hNone =>
          have hTaskNone := List.findSome?_eq_none_iff.mp hNone _
            (List.mem_map.mpr ⟨task, hTask, rfl⟩)
          rw [hTaskNone] at hFails
          cases hFails
  | later hRuns hNone _ ih =>
      obtain ⟨first, hFirst⟩ := ih
      subst hRuns
      unfold runLevels
      dsimp only
      rw [List.findSome?_eq_none_iff.mpr hNone]
      exact ⟨first, hFirst⟩

/-- What may end a run stands behind one of its constraints. -/
private theorem explained {levels : List Level} {known : Array (Option (Fp p))}
    {failure : Failure SolveError} (h : solver.MayFail levels known failure)
    (hPlan : solver.system.Planned resolution)
    (hInputs : solver.system.layout.numInputs ≤ solver.system.layout.numWires)
    {before : List Level}
    (hSplit : solver.system.schedule.levels = before ++ levels)
    (hKnows : Knows solver.system.toValidSystem resolution.resolver
      (before.flatMap Level.nodes) known) :
    ∃ node c, solver.system.constraints[node]? = some c ∧
      solver.Explained resolution.resolver node c
        (solver.Fits known []) failure := by
  induction h generalizing before with
  | @here level rest known failure task hTask hFails =>
      obtain ⟨hNodup, -, hTurns⟩ := level_turns hPlan hInputs hSplit hKnows
      have hNodes : ∀ node ∈ task.nodes, node ∈ level.nodes :=
        fun node hNode => List.mem_flatMap.mpr ⟨task, hTask, hNode⟩
      exact runTask_failure ((List.nodup_flatMap.mp hNodup).1 task hTask)
        (fun node hNode =>
          hTurns node (hNodes node hNode)) (fun _ _ _ _ => rfl) hFails
  | @later level rest known failure runs hRuns hNone _ ih =>
      subst hRuns
      obtain ⟨-, hCommitted, -, -⟩ := runLevel_sound hPlan hInputs hSplit hKnows
        (List.findSome?_eq_none_iff.mpr hNone) rfl
      have hNext :
          solver.system.schedule.levels = (before ++ [level]) ++ rest := by
        rw [hSplit, List.append_assoc, List.singleton_append]
      obtain ⟨node, c, hGet, hExplained⟩ := ih hNext hCommitted
      exact ⟨node, c, hGet, hExplained.mono fun wires hFits =>
        ⟨hFits.1, commitLevel_forced hFits.1 hFits.2⟩⟩

end MayFail

omit [Modulus p] [Fact p.Prime] in
/-- When all constraints have been run, every wire is known. -/
private theorem exists_complete (hPlan : solver.system.Planned resolution)
    (hFit : solver.system.CountsFit) {known : Array (Option (Fp p))}
    (hKnows : Knows solver.system.toValidSystem resolution.resolver
      (solver.system.schedule.levels.flatMap Level.nodes) known) :
    ∃ witness, complete 0 known.toList = .ok witness := by
  have hKnown : ∀ value ∈ known.toList, value ≠ none := by
    rintro value hMem rfl
    obtain ⟨wire, hWire⟩ := mem_toList_iff_getElem?.mp hMem
    have hBound := hKnows.size ▸ (Array.getElem?_eq_some_iff.mp hWire).1
    have hAt : wire < solver.system.layout.numInputs ∨
        ∃ node ∈ solver.system.schedule.levels.flatMap Level.nodes,
          resolution.resolver[wire]? = some node := by
      by_cases hInput : wire < solver.system.layout.numInputs
      · exact Or.inl hInput
      · obtain ⟨owner, hOwner⟩ := exists_resolver hPlan hFit (by omega) hBound
        refine Or.inr ⟨owner, ?_, hOwner⟩
        rw [hPlan.ordered.perm.mem_iff, List.mem_range,
          hPlan.resolved.length_costs]
        exact (hPlan.resolved.bounded wire owner hOwner).1
    obtain ⟨value, hValue⟩ := (hKnows.knows wire hBound).mpr hAt
    rw [hWire] at hValue
    cases hValue
  have hComplete : ∀ (values : List (Option (Fp p))) (start : Nat),
      (∀ value ∈ values, value ≠ none) →
        ∃ witness, complete start values = .ok witness := by
    intro values
    induction values with
    | nil => exact fun _ _ => ⟨[], rfl⟩
    | cons value rest ih =>
        intro start hAll
        obtain ⟨later, hLater⟩ :=
          ih (start + 1) fun value hMem =>
            hAll value (List.mem_cons_of_mem _ hMem)
        cases value with
        | none => exact absurd rfl (hAll none List.mem_cons_self)
        | some value =>
            refine ⟨value :: later, ?_⟩
            unfold complete
            rw [hLater]
  exact hComplete known.toList 0 hKnown

/-- The errors that solving may report. The tasks of a level run side by side,
so where several fail any of them may be the one that is heard of; `solve`
reports the first. -/
inductive MayReport (solver : Solver p)
    (publicInputs secretInputs : List (Fp p)) :
    SolveError → Prop
  | inputs {e : SolveError}
      (hCheck : solver.checkInputs publicInputs secretInputs = .error e) :
      MayReport solver publicInputs secretInputs e
  | task {e : SolveError}
      (hCheck : solver.checkInputs publicInputs secretInputs = .ok ())
      (hCounts : solver.system.countsFit = true)
      (hFails : solver.MayFail solver.system.schedule.levels
        (solver.initialValues publicInputs secretInputs) (.reported e)) :
      MayReport solver publicInputs secretInputs e
  | incomplete {e : SolveError}
      (hCheck : solver.checkInputs publicInputs secretInputs = .ok ())
      (hCounts : solver.system.countsFit = true)
      (hNone : (solver.trace publicInputs secretInputs).failure = none)
      (hOpen :
        complete 0 (solver.trace publicInputs secretInputs).known.toList =
        .error e) :
      MayReport solver publicInputs secretInputs e

omit [Fact p.Prime] in
theorem mayReport_of_solve {publicInputs secretInputs : List (Fp p)}
    {e : SolveError}
    (h : solver.solve publicInputs secretInputs = .error (.reported e)) :
    solver.MayReport publicInputs secretInputs e := by
  unfold solve at h
  simp only [bind_eq_error, Outcome.ofExcept_eq_error, Outcome.ofExcept_eq_ok]
    at h
  rcases h with ⟨e', hReported, hCheck⟩ | ⟨⟨⟩, hCheck, h⟩
  · injection hReported with hSame
    exact .inputs (hSame ▸ hCheck)
  split at h
  · cases h
  next hUnwrapped =>
  have hCounts : solver.system.countsFit = true := by simpa using hUnwrapped
  split at h
  · next cause hFails =>
      injection h with h
      exact .task hCheck hCounts (mayFail_runLevels (h ▸ hFails))
  · next hNone =>
      simp only [bind_eq_error, Outcome.ofExcept_eq_error, pure_ne_error,
        and_false, exists_false, or_false] at h
      obtain ⟨e', hReported, hOpen⟩ := h
      injection hReported with hSame
      exact .incomplete hCheck hCounts hNone (hSame ▸ hOpen)

namespace MayReport

variable {publicInputs secretInputs : List (Fp p)} {e : SolveError}

omit [Fact p.Prime] in
/-- Where something may be reported, there is no solution. -/
theorem solve_ne_ok (h : solver.MayReport publicInputs secretInputs e)
    (solution : Solution p) :
    solver.solve publicInputs secretInputs ≠ .ok solution := by
  intro hSolve
  obtain ⟨hInputs, -, hEnd, hComplete, -⟩ := solve_eq_ok hSolve
  cases h with
  | inputs hCheck =>
      rw [hInputs] at hCheck
      cases hCheck
  | task _ _ hFails =>
      obtain ⟨first, hFirst⟩ := hFails.exists_failure
      rw [show (solver.trace publicInputs secretInputs).failure = some first
        from hFirst] at hEnd
      cases hEnd
  | incomplete _ _ _ hOpen =>
      rw [hComplete] at hOpen
      cases hOpen

/-- What may be reported is that the numbers of inputs are wrong, or it stands
behind one of the constraints. -/
theorem explained (h : solver.MayReport publicInputs secretInputs e)
    (hPlan : solver.system.Planned resolution) :
    solver.checkInputs publicInputs secretInputs = .error e ∨
      solver.system.countsFit = true ∧
        ∃ node c, solver.system.constraints[node]? = some c ∧
        solver.Explained resolution.resolver node c
          (solver.Fits (solver.initialValues publicInputs secretInputs) [])
            (.reported e) := by
  have hSplit := (List.nil_append solver.system.schedule.levels).symm
  cases h with
  | inputs hCheck => exact .inl hCheck
  | task hCheck hCounts hFails =>
      have hFit := ValidSystem.countsFit_spec hCounts
      exact .inr ⟨hCounts, hFails.explained hPlan hFit.inputs_le hSplit
        (knows_initialValues hPlan hFit hCheck)⟩
  | incomplete hCheck hCounts hNone hOpen =>
      have hFit := ValidSystem.countsFit_spec hCounts
      obtain ⟨-, hEnd, -, -⟩ :=
        runLevels_sound hPlan hFit.inputs_le [] List.prefix_rfl
          (knows_initialValues hPlan hFit hCheck) hNone
      obtain ⟨witness, hComplete⟩ := exists_complete hPlan hFit hEnd
      rw [show complete 0
        (solver.trace publicInputs secretInputs).known.toList = .ok witness
        from hComplete] at hOpen
      cases hOpen

end MayReport

/-- The only fault that solving can end in is that a sum of counts wraps
around. -/
theorem solve_eq_fault (hPlan : solver.system.Planned resolution)
    {publicInputs secretInputs : List (Fp p)} {cause : Fault}
    (h : solver.solve publicInputs secretInputs = .error (.fault cause)) :
    solver.system.countsFit = false ∧ cause = .outOfBounds := by
  unfold solve at h
  simp only [bind_eq_error, Outcome.ofExcept_eq_error, Outcome.ofExcept_eq_ok]
    at h
  rcases h with ⟨e, hReported, -⟩ | ⟨⟨⟩, hCheck, h⟩
  · cases hReported
  split at h
  · next hWrapped =>
      injection h with h
      injection h with h
      exact ⟨by simpa using hWrapped, h.symm⟩
  next hUnwrapped =>
  have hFit := ValidSystem.countsFit_spec (by simpa using hUnwrapped)
  split at h
  · next failure hFails =>
      injection h with h
      obtain ⟨node, c, -, hExplained⟩ :=
        (mayFail_runLevels hFails).explained hPlan hFit.inputs_le
          (List.nil_append solver.system.schedule.levels).symm
          (knows_initialValues hPlan hFit hCheck)
      subst h
      exact absurd hExplained id
  · simp only [bind_eq_error, Outcome.ofExcept_eq_error, pure_ne_error,
      and_false, exists_false, or_false] at h
    obtain ⟨e, hReported, -⟩ := h
    cases hReported

/-- Solving fails because the numbers of inputs are wrong, because a sum of
counts wraps around, or by one of the constraints. -/
theorem solve_failure (hPlan : solver.system.Planned resolution)
    {publicInputs secretInputs : List (Fp p)} {failure : Failure SolveError}
    (h : solver.solve publicInputs secretInputs = .error failure) :
    (∃ e, solver.checkInputs publicInputs secretInputs = .error e ∧
      failure = .reported e) ∨
      solver.system.countsFit = false ∧ failure = .fault .outOfBounds ∨
      solver.system.countsFit = true ∧
        ∃ node c, solver.system.constraints[node]? = some c ∧
        solver.Explained resolution.resolver node c
          (solver.Fits (solver.initialValues publicInputs secretInputs) [])
            failure := by
  cases failure with
  | fault cause =>
      obtain ⟨hWrapped, rfl⟩ := solve_eq_fault hPlan h
      exact .inr (.inl ⟨hWrapped, rfl⟩)
  | reported e =>
      rcases (mayReport_of_solve h).explained hPlan with hCheck | hConstraint
      · exact .inl ⟨e, hCheck, rfl⟩
      · exact .inr (.inr hConstraint)

omit [Fact p.Prime] in
/-- On the way to a solution no constraint has met an obstacle. -/
theorem solve_solvable (hPlan : solver.system.Planned resolution)
    {publicInputs secretInputs : List (Fp p)} {solution : Solution p}
    (h : solver.solve publicInputs secretInputs = .ok solution) {node : Nat}
    {c : Constraint} (hGet : solver.system.constraints[node]? = some c) :
    solver.system.Solvable resolution.resolver node
      solution.witness.toArray c := by
  obtain ⟨hPerm, hSteps⟩ := solve_taken hPlan h
  have hMem : node ∈
      (solver.trace publicInputs secretInputs).steps.map Step.constraint := by
    rw [hPerm.mem_iff, List.mem_range]
    exact (Array.getElem?_eq_some_iff.mp hGet).1
  obtain ⟨step, hStep, rfl⟩ := List.mem_map.mp hMem
  obtain ⟨c', known, ⟨hGet', cost, recent, hTurn, hRun⟩, hAssigns⟩ :=
    hSteps step hStep
  rw [hGet] at hGet'
  injection hGet' with hSame
  subst hSame
  exact hTurn.runConstraint_solvable hGet hRun hAssigns

end Solver

end RankOne
