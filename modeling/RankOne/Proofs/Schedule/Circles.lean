import RankOne.Proofs.Schedule.Levels

/-!
# Hints that read each other in a circle

The resolution pass goes into a hint from a constraint that mentions one of its
outputs, or from a hint that reads one of them, and takes the outputs for
resolved only when it comes out again. No circle escapes it. Validation has seen
to it that every output of a hint occurs in a constraint, so that the pass goes
into every hint, and of the hints on a circle none is the first that it comes
out of. It does not go round the circle for ever either: it stops at the first
hint that is waiting already.
-/

namespace RankOne

variable {p : Nat}

/-! ## The depth of the pass -/

namespace ValidSystem

/-- Resolves a hint like `resolveHint`, but ends with `exceeded` where the bound
on the depth is exceeded. -/
def resolveHintWithin (system : ValidSystem p)
    (exceeded : Except Fault ResolutionState) (node : Nat) :
    Nat → List Nat → Nat → Hint p → ResolutionState →
      Except Fault ResolutionState
  | 0, _, _, _, _ => exceeded
  | levels + 1, pending, number, hint, state =>
      if number ∈ pending then .error (.hintReadsItself hint.firstWire)
      else
        let charged := { state with cost := state.cost.chargeHint hint }
        match hint.terms.foldlM
            (system.resolveHintTerm node hint.firstWire
              (resolveHintWithin system exceeded node levels
                (number :: pending)))
            charged with
        | .error cause => .error cause
        | .ok settled => .ok (settled.resolve node hint.wires)

variable {system : ValidSystem p} {node : Nat}

/-- Handling a term asks nothing of a way to resolve hints but to resolve the
producer of the wire. -/
private theorem resolveHintTerm_congr {reader : Nat} {term : Term}
    {state : ResolutionState}
    {run run' : Nat → Hint p → ResolutionState → Except Fault ResolutionState}
    (h : ∀ source sourceHint,
      system.hintFor? term.wire = some (source, sourceHint) →
        run source sourceHint state = run' source sourceHint state) :
    system.resolveHintTerm node reader run state term =
      system.resolveHintTerm node reader run' state term := by
  unfold resolveHintTerm
  split
  · rfl
  split
  · rfl
  split
  · next source sourceHint hProducer => exact h source sourceHint hProducer
  · rfl

/-- The bound on the depth does not matter once it leaves a level for every hint
that is not waiting: a hint that is waiting already is not gone into again. -/
theorem resolveHintWithin_eq (hSystem : system.WellFormed)
    (exceeded : Except Fault ResolutionState) {levels levels' number : Nat}
    {pending : List Nat} {hint : Hint p}
    (hGet : system.hints[number]? = some hint)
    (hWaiting : system.Waiting number pending)
    (hLevels : system.hints.size < pending.length + levels)
    (hLevels' : system.hints.size < pending.length + levels')
    (state : ResolutionState) :
    system.resolveHintWithin exceeded node levels pending number hint state =
      system.resolveHint node levels' pending number hint state := by
  have hLength := hWaiting.length_le
  induction levels generalizing levels' number pending hint state with
  | zero => omega
  | succ levels ih =>
      cases levels' with
      | zero => omega
      | succ levels' =>
          unfold resolveHintWithin resolveHint
          by_cases hPending : number ∈ pending
          · rw [if_pos hPending, if_pos hPending]
          · have hNumber := (Array.getElem?_eq_some_iff.mp hGet).1
            have hTerms : ∀ term ∈ hint.terms, ∀ current,
                system.resolveHintTerm node hint.firstWire
                    (system.resolveHintWithin exceeded node levels
                      (number :: pending)) current
                    term =
                  system.resolveHintTerm node hint.firstWire
                    (system.resolveHint node levels' (number :: pending))
                      current term := by
              intro term hTerm current
              refine resolveHintTerm_congr fun source sourceHint hProducer => ?_
              have hSource := (hSystem.hintFor?_eq_some_iff.mp hProducer).1
              have hReads : system.HintReads source number :=
                ⟨hint, sourceHint, hGet, term, hTerm, hProducer⟩
              have hNext := hWaiting.push hPending hNumber hReads
              apply ih hSource hNext
              · rw [List.length_cons]
                omega
              · rw [List.length_cons]
                omega
              · exact hNext.length_le
            rw [if_neg hPending, if_neg hPending]
            have hFold := foldlM_congr hTerms { state with
              cost := state.cost.chargeHint hint }
            dsimp only
            cases hRun :
              hint.terms.foldlM (system.resolveHintTerm node hint.firstWire
                (system.resolveHint node levels' (number :: pending)))
                { state with cost := state.cost.chargeHint hint } with
            | error cause => rw [hFold.trans hRun]
            | ok settled => rw [hFold.trans hRun]

end ValidSystem

/-! ## What the pass can fault for -/

/-- The cause lies with a hint, which needs its own outputs or reads a wire too
early. -/
def Fault.BlamesHint : Fault → Prop
  | hintReadsItself _ => True
  | hintReadsUnresolved _ _ => True
  | _ => False

namespace ValidSystem

variable {system : ValidSystem p} {node : Nat} {cause : Fault}

private theorem resolveHint_blames {levels number : Nat} {pending : List Nat}
    {hint : Hint p} {state : ResolutionState}
    (h : system.resolveHint node levels pending number hint state =
      .error cause) : cause.BlamesHint := by
  induction levels generalizing number pending hint state with
  | zero =>
      injection h with h
      subst h
      trivial
  | succ levels ih =>
      unfold resolveHint at h
      split at h
      · injection h with h
        subst h
        trivial
      dsimp only at h
      split at h
      · next hFold =>
          injection h with h
          subst h
          obtain ⟨term, -, current, -, hFails⟩ :=
            foldlM_error_step (fun _ => True) hFold trivial
              (fun _ _ _ _ _ _ => trivial)
          unfold resolveHintTerm at hFails
          split at hFails
          · cases hFails
          split at hFails
          · cases hFails
          split at hFails
          · exact ih hFails
          · injection hFails with hFails
            subst hFails
            trivial
      · cases h

private theorem resolveTerm_blames {term : Term} {state : ResolutionState}
    (h : system.resolveTerm node state term = .error cause) :
    cause.BlamesHint := by
  unfold resolveTerm at h
  dsimp only at h
  split at h
  · cases h
  split at h
  · cases h
  split at h
  · exact resolveHint_blames h
  · cases h

private theorem resolveFrom_blames {cs : List Constraint}
    {resolver : Std.TreeMap Nat Nat}
    (h : system.resolveFrom node cs resolver = .error cause) :
    cause.BlamesHint := by
  induction cs generalizing node resolver with
  | nil => cases h
  | cons c rest ih =>
      unfold resolveFrom at h
      split at h
      · next hFold =>
          injection h with h
          subst h
          obtain ⟨term, -, current, -, hFails⟩ :=
            foldlM_error_step (fun _ => True) hFold trivial
              (fun _ _ _ _ _ _ => trivial)
          exact resolveTerm_blames hFails
      split at h
      · next hLater =>
          injection h with h
          subst h
          exact ih hLater
      · cases h

/-! ## No circle escapes the pass -/

/-- A pass that ends well has gone into every hint, and found no circle above
it. -/
theorem accessible_of_resolution {flat : FlatSystem p} {resolution : Resolution}
    (hValid : flat.validate = .ok system)
    (hResolution : system.resolution = .ok resolution) (number : Nat) :
    Acc system.HintReads number := by
  obtain ⟨-, hSystem⟩ := FlatSystem.validate_wellFormed hValid
  have hSound := resolution_sound hSystem hResolution
  cases hGet : system.hints[number]? with
  | none =>
      -- There is no such hint, and so it reads nothing.
      constructor
      rintro source ⟨hint, -, hHint, -⟩
      rw [hGet] at hHint
      cases hHint
  | some hint =>
      have hFirst := hSystem.firstWire_mem hGet
      have hLow :=
        (hSystem.outputs_internal number hint hGet hint.firstWire hFirst).1
      obtain ⟨node, c, hConstraint, term, hTerm, hWire⟩ :=
        FlatSystem.exists_mention_of_output hValid hGet hFirst
      rw [← hWire] at hLow hFirst
      obtain ⟨owner, hOwner⟩ := hSound.exists_owner hConstraint hTerm hLow
      exact hSound.accessible number hint hGet term.wire hFirst owner hOwner

end ValidSystem

/-- A system whose hints read each other in a circle cannot be scheduled, and a
hint is to blame. -/
theorem Schedule.ofSystem_of_circle {settings : SchedulerSettings}
    {flat : FlatSystem p} {valid : ValidSystem p}
    (hValid : flat.validate = .ok valid) {number : Nat}
    (hCircle : Relation.TransGen valid.HintReads number number) :
    ∃ cause, cause.BlamesHint ∧ ofSystem settings valid = .error cause := by
  unfold ofSystem
  cases hResolution : valid.resolution with
  | error cause =>
    exact ⟨cause, ValidSystem.resolveFrom_blames hResolution, rfl⟩
  | ok resolution =>
      have hAcc :=
        ValidSystem.accessible_of_resolution hValid hResolution number
      exact absurd hCircle (not_rel_of_acc hAcc.transGen)

end RankOne
