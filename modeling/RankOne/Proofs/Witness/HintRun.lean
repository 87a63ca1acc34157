import RankOne.Proofs.Schedule.Resolution
import RankOne.Proofs.Witness.Evaluation

/-!
# Running the hints of a constraint

When the turn of a constraint comes, every wire that it reads and that another
constraint resolves is known, and the wires that it resolves itself are not. The
hints it resolves are run on demand, each after the hints it reads, and none is
run twice: a hint that is being run would have to read its own outputs, and
resolution has ruled that out.
-/

namespace RankOne

variable {p : Nat}

/-! ## Writes -/

section Lookup

variable {α : Type}

/-- The wires that have been written are those that are listed. -/
theorem isSome_lookup_iff {writes : List (Nat × α)} {wire : Nat} :
    (writes.lookup wire).isSome ↔ wire ∈ writes.map Prod.fst := by
  simp only [List.lookup_isSome_iff, List.mem_map, beq_iff_eq, @eq_comm _ wire]

private theorem lookup_reverse_zip_of_notMem {wires : List Nat}
    {outputs : List α} {rest : List (Nat × α)} {wire : Nat} (h : wire ∉ wires) :
    ((wires.zip outputs).reverse ++ rest).lookup wire = rest.lookup wire := by
  induction wires generalizing outputs rest with
  | nil => rfl
  | cons first wires ih =>
      cases outputs with
      | nil => rfl
      | cons output outputs =>
          have hFirst : wire ≠ first :=
            fun hSame => h (hSame ▸ List.mem_cons_self)
          have hRest : wire ∉ wires :=
            fun hMem => h (List.mem_cons_of_mem _ hMem)
          rw [List.zip_cons_cons, List.reverse_cons, List.append_assoc,
            List.singleton_append, ih hRest, List.lookup_cons,
            beq_false_of_ne hFirst]

/-- Writes to distinct wires are read back. -/
private theorem map_lookup_reverse_zip {wires : List Nat} {outputs : List α}
    (rest : List (Nat × α)) (hNodup : wires.Nodup)
    (hLength : outputs.length = wires.length) :
    wires.map (fun wire => ((wires.zip outputs).reverse ++ rest).lookup wire) =
      outputs.map some := by
  induction wires generalizing outputs rest with
  | nil =>
      rw [List.eq_nil_of_length_eq_zero hLength]
      rfl
  | cons first wires ih =>
      obtain ⟨hFirst, hWires⟩ := List.nodup_cons.mp hNodup
      cases outputs with
      | nil => cases hLength
      | cons output outputs =>
          rw [List.length_cons, List.length_cons, Nat.add_right_cancel_iff]
            at hLength
          rw [List.zip_cons_cons, List.reverse_cons, List.append_assoc,
            List.singleton_append, List.map_cons, List.map_cons,
            ih _ hWires hLength, lookup_reverse_zip_of_notMem hFirst,
            List.lookup_cons_self]

end Lookup

/-- A full assignment gives known wires and written wires their values. -/
structure Assigns (wires : Array (Fp p)) (known : Array (Option (Fp p)))
    (writes : List (Nat × Fp p)) : Prop where
  known : ∀ (wire : Nat) (value : Fp p), known[wire]? = some (some value) →
    wires[wire]? = some value
  writes : ∀ (wire : Nat) (value : Fp p), writes.lookup wire = some value →
    wires[wire]? = some value

/-- Nothing that has been written is lost or changed. -/
def WritesGrow (writes writes' : List (Nat × Fp p)) : Prop :=
  ∀ wire value, writes.lookup wire = some value →
    writes'.lookup wire = some value

namespace WritesGrow

variable {writes writes' writes'' : List (Nat × Fp p)}

theorem refl (writes : List (Nat × Fp p)) : WritesGrow writes writes :=
  fun _ _ h => h

private theorem trans (h : WritesGrow writes writes')
    (h' : WritesGrow writes' writes'') : WritesGrow writes writes'' :=
  fun wire value hWritten => h' wire value (h wire value hWritten)

theorem isSome (h : WritesGrow writes writes') {wire : Nat}
    (hWritten : (writes.lookup wire).isSome) :
    (writes'.lookup wire).isSome := by
  obtain ⟨value, hValue⟩ := Option.isSome_iff_exists.mp hWritten
  rw [h wire value hValue]
  rfl

theorem assigns (h : WritesGrow writes writes') {wires : Array (Fp p)}
    {known : Array (Option (Fp p))} (hWires : Assigns wires known writes') :
    Assigns wires known writes where
  known := hWires.known
  writes :=
    fun wire value hWritten => hWires.writes wire value (h wire value hWritten)

end WritesGrow

/-! ## The turn of a constraint -/

/-- What constraint `node` finds when its turn comes. -/
structure Solver.Turn (solver : Solver p) (resolution : Resolution) (node : Nat)
    (c : Constraint) (cost : NodeCost) (view : View p) : Prop where
  wellFormed : solver.system.WellFormed
  resolved : resolution.Sound solver.system.toValidSystem
  nodeResolved :
    NodeResolved solver.system.toValidSystem resolution.resolver node c cost
  others : ∀ wire,
    SettledFor solver.system.toValidSystem resolution.resolver
      cost.dependencies node wire →
      resolution.resolver[wire]? ≠ some node →
        ∃ value, view.known[wire]? = some (some value)
  own : ∀ wire : Nat, resolution.resolver[wire]? = some node →
    view.known[wire]? = some none ∧ view.recent.lookup wire = none

namespace Solver.Turn

variable {solver : Solver p} {resolution : Resolution} {node : Nat}
  {c : Constraint} {cost : NodeCost} {view : View p}
  (hTurn : solver.Turn resolution node c cost view)
include hTurn

theorem get_own {progress : Progress p} {wire : Nat}
    (hOwner : resolution.resolver[wire]? = some node) :
    view.get progress wire = .ok (progress.writes.lookup wire) := by
  obtain ⟨hKnown, hRecent⟩ := hTurn.own wire hOwner
  unfold View.get
  rw [hKnown, hRecent]
  dsimp only
  cases progress.writes.lookup wire with
  | none => rfl
  | some value => rfl

theorem get_other {wire : Nat}
    (hSettled : SettledFor solver.system.toValidSystem resolution.resolver
      cost.dependencies node wire)
    (hOwner : resolution.resolver[wire]? ≠ some node) :
    ∃ value, view.known[wire]? = some (some value) ∧
      ∀ progress, view.get progress wire = .ok (some value) := by
  obtain ⟨value, hKnown⟩ := hTurn.others wire hSettled hOwner
  refine ⟨value, hKnown, fun progress => ?_⟩
  unfold View.get
  rw [hKnown]

/-- What a constraint cannot see it resolves itself and has not written yet. -/
theorem get_eq_none {progress : Progress p} {wire : Nat}
    (hSettled : SettledFor solver.system.toValidSystem resolution.resolver
      cost.dependencies node wire) (h : view.get progress wire = .ok none) :
    resolution.resolver[wire]? = some node ∧
      progress.writes.lookup wire = none := by
  by_cases hOwner : resolution.resolver[wire]? = some node
  · rw [hTurn.get_own hOwner] at h
    injection h with h
    exact ⟨hOwner, h⟩
  · obtain ⟨value, -, hGet⟩ := hTurn.get_other hSettled hOwner
    rw [hGet progress] at h
    cases h

/-- A full assignment that gives known and written wires their values agrees
with what the constraint sees. -/
theorem reads {progress : Progress p} {wires : Array (Fp p)} {wire : Nat}
    (hSettled : SettledFor solver.system.toValidSystem resolution.resolver
      cost.dependencies node wire)
    (hWires : Assigns wires view.known progress.writes) :
    view.Reads progress wires wire := by
  intro value h
  by_cases hOwner : resolution.resolver[wire]? = some node
  · rw [hTurn.get_own hOwner] at h
    injection h with h
    exact hWires.writes wire value h
  · obtain ⟨value', hKnown, hGet⟩ := hTurn.get_other hSettled hOwner
    rw [hGet progress] at h
    injection h with h
    injection h with h
    exact hWires.known wire value (h ▸ hKnown)

end Solver.Turn

/-! ## Hints -/

variable [Modulus p]

namespace Progress

/-- A hint has been run: its outputs are written, so are the outputs of the
hints it reads that the constraint resolves, and its function yields its
outputs. -/
structure Ran (solver : Solver p) (resolution : Resolution) (node : Nat)
    (view : View p) (hint : Hint p) (progress : Progress p) : Prop where
  outputs : ∀ wire ∈ hint.wires, (progress.writes.lookup wire).isSome
  inputs : ∀ term ∈ hint.terms, resolution.resolver[term.wire]? = some node →
    (progress.writes.lookup term.wire).isSome
  holds : ∀ wires, Assigns wires view.known progress.writes →
    solver.HintHolds wires hint

/-- What holds while the hints of a constraint are run. -/
structure Valid (solver : Solver p) (resolution : Resolution) (node : Nat)
    (view : View p) (progress : Progress p) : Prop where
  origin : ∀ wire, (progress.writes.lookup wire).isSome →
    resolution.resolver[wire]? = some node ∧
      ∃ (number : Nat) (hint : Hint p),
        solver.system.hints[number]? = some hint ∧
        wire ∈ hint.wires
  ran : ∀ (number : Nat) (hint : Hint p),
    solver.system.hints[number]? = some hint →
    ∀ wire ∈ hint.wires, (progress.writes.lookup wire).isSome →
      progress.Ran solver resolution node view hint
  nodup_writes : (progress.writes.map Prod.fst).Nodup
  nodup_hints : progress.hints.Nodup
  mem_hints : ∀ number, number ∈ progress.hints ↔ ∃ hint : Hint p,
    solver.system.hints[number]? = some hint ∧
      (progress.writes.lookup hint.firstWire).isSome

variable {solver : Solver p} {resolution : Resolution} {node : Nat}
  {view : View p} {hint : Hint p} {progress progress' : Progress p}

theorem Ran.grow (h : progress.Ran solver resolution node view hint)
    (hGrow : WritesGrow progress.writes progress'.writes) :
    progress'.Ran solver resolution node view hint where
  outputs := fun wire hWire => hGrow.isSome (h.outputs wire hWire)
  inputs := fun term hTerm hOwner => hGrow.isSome (h.inputs term hTerm hOwner)
  holds := fun wires hWires => h.holds wires (hGrow.assigns hWires)

theorem Valid.start : Valid solver resolution node view {} where
  origin := by
    intro wire hWritten
    simp at hWritten
  ran := by
    intro number hint _ wire _ hWritten
    simp at hWritten
  nodup_writes := List.nodup_nil
  nodup_hints := List.nodup_nil
  mem_hints := by simp

end Progress

/-! ## Recording a hint -/

namespace Progress

/-- A hint has been run with the given outputs. -/
def record (progress : Progress p) (number : Nat) (hint : Hint p)
    (outputs : List (Fp p)) : Progress p where
  writes := (hint.wires.zip outputs).reverse ++ progress.writes
  hints := number :: progress.hints

variable {number : Nat} {hint : Hint p} {progress : Progress p}
  {outputs : List (Fp p)} {wire : Nat}

omit [Modulus p]

private theorem lookup_record_of_notMem (h : wire ∉ hint.wires) :
    (progress.record number hint outputs).writes.lookup wire =
      progress.writes.lookup wire :=
  lookup_reverse_zip_of_notMem h

private theorem map_lookup_record (hNodup : hint.wires.Nodup)
    (hLength : outputs.length = hint.wires.length) :
    hint.wires.map (fun wire =>
      (progress.record number hint outputs).writes.lookup wire) =
      outputs.map some :=
  map_lookup_reverse_zip progress.writes hNodup hLength

private theorem isSome_lookup_record (hNodup : hint.wires.Nodup)
    (hLength : outputs.length = hint.wires.length) (hWire : wire ∈ hint.wires) :
    ((progress.record number hint outputs).writes.lookup wire).isSome := by
  have hMem := List.mem_map_of_mem
    (f := fun wire =>
      (progress.record number hint outputs).writes.lookup wire) hWire
  rw [map_lookup_record hNodup hLength] at hMem
  obtain ⟨value, -, hValue⟩ := List.mem_map.mp hMem
  rw [← hValue]
  rfl

private theorem grow_record (number : Nat) (outputs : List (Fp p))
    (hFresh : ∀ wire ∈ hint.wires, progress.writes.lookup wire = none) :
    WritesGrow progress.writes
      (progress.record number hint outputs).writes := by
  intro wire value hOld
  rw [lookup_record_of_notMem]
  · exact hOld
  · intro hWire
    rw [hFresh wire hWire] at hOld
    cases hOld

private theorem nodup_record (hNodup : hint.wires.Nodup)
    (hLength : outputs.length = hint.wires.length)
    (hFresh : ∀ wire ∈ hint.wires, progress.writes.lookup wire = none)
    (h : (progress.writes.map Prod.fst).Nodup) :
    ((progress.record number hint outputs).writes.map Prod.fst).Nodup := by
  show (List.map Prod.fst ((hint.wires.zip outputs).reverse ++
    progress.writes)).Nodup
  rw [List.map_append, List.map_reverse,
    List.map_fst_zip (Nat.le_of_eq hLength.symm)]
  refine List.nodup_append.mpr ⟨List.nodup_reverse.mpr hNodup, h, ?_⟩
  rintro wire hWire _ hOld rfl
  have hWritten := isSome_lookup_iff.mpr hOld
  rw [hFresh wire (List.mem_reverse.mp hWire)] at hWritten
  cases hWritten

/-- Outputs that are assigned their values are those of the record. -/
private theorem outputs_eq_of_assigns {wires : Array (Fp p)}
    {known : Array (Option (Fp p))} (hNodup : hint.wires.Nodup)
    (hLength : outputs.length = hint.wires.length)
    (h : Assigns wires known (progress.record number hint outputs).writes) :
    hint.wires.map (fun wire => wires[wire]?) = outputs.map some := by
  rw [← map_lookup_record hNodup hLength]
  apply List.map_congr_left
  intro wire hWire
  obtain ⟨value, hValue⟩ := Option.isSome_iff_exists.mp
    (isSome_lookup_record hNodup hLength hWire)
  rw [hValue]
  exact h.writes wire value hValue

end Progress

/-! ## Taking a run apart -/

namespace Solver

/-- Sees to a term that a hint reads: the hint that produces its wire is run,
unless the wire is known. -/
def settleTerm (solver : Solver p) (view : View p)
    (run : Nat → Hint p → Progress p → Outcome SolveError (Progress p))
    (progress : Progress p) (term : Term) :
    Outcome SolveError (Progress p) := do
  if (← Outcome.ofFaulty (view.get progress term.wire)).isSome then
    return progress
  match solver.system.hintFor? term.wire with
  | some (source, sourceHint) => run source sourceHint progress
  | none => return progress

variable {solver : Solver p} {view : View p} {levels number : Nat}
  {hint : Hint p} {progress next : Progress p} {term : Term}
  {failure : Failure SolveError}
  {run : Nat → Hint p → Progress p → Outcome SolveError (Progress p)}

theorem runHint_succ :
    solver.runHint view (levels + 1) number hint progress = (do
    if (← Outcome.ofFaulty (view.get progress hint.firstWire)).isSome then
      return progress
    let settled ← hint.terms.foldlM
      (solver.settleTerm view (solver.runHint view levels)) progress
    let inputs ← hint.inputs.mapM (solver.evaluateInput view settled)
    let outputs ← Outcome.ofExcept (solver.applyHint hint inputs)
    return settled.record number hint outputs) := rfl

omit [Modulus p] in
/-- A term has been seen to: nothing had to be done, or the producer of its wire
has been run. -/
theorem settleTerm_eq_ok
    (h : solver.settleTerm view run progress term = .ok next) :
    (next = progress ∧
      ((∃ value, view.get progress term.wire = .ok (some value)) ∨
      solver.system.hintFor? term.wire = none)) ∨
    ∃ source sourceHint,
      solver.system.hintFor? term.wire = some (source, sourceHint) ∧
      view.get progress term.wire = .ok none ∧
        run source sourceHint progress = .ok next := by
  unfold settleTerm at h
  simp only [bind_eq_ok, Outcome.ofFaulty_eq_ok] at h
  obtain ⟨read, hRead, h⟩ := h
  cases read with
  | some value =>
      rw [Option.isSome_some, if_pos rfl, pure_eq_ok] at h
      exact Or.inl ⟨h.symm, Or.inl ⟨value, hRead⟩⟩
  | none =>
      rw [Option.isSome_none, if_neg Bool.false_ne_true] at h
      split at h
      · next source sourceHint hProducer =>
          exact Or.inr ⟨source, sourceHint, hProducer, hRead, h⟩
      · next hPlain =>
          rw [pure_eq_ok] at h
          exact Or.inl ⟨h.symm, Or.inr hPlain⟩

omit [Modulus p] in
/-- Seeing to a term fails when its wire cannot be looked up, or in running its
producer. -/
theorem settleTerm_eq_error
    (h : solver.settleTerm view run progress term = .error failure) :
    (∃ cause, view.get progress term.wire = .error cause) ∨
    ∃ source sourceHint,
      solver.system.hintFor? term.wire = some (source, sourceHint) ∧
      view.get progress term.wire = .ok none ∧
        run source sourceHint progress = .error failure := by
  unfold settleTerm at h
  simp only [bind_eq_error, Outcome.ofFaulty_eq_error, Outcome.ofFaulty_eq_ok]
    at h
  rcases h with ⟨cause, -, hRead⟩ | ⟨read, hRead, h⟩
  · exact Or.inl ⟨cause, hRead⟩
  cases read with
  | some value =>
      rw [Option.isSome_some, if_pos rfl] at h
      exact absurd h pure_ne_error
  | none =>
      rw [Option.isSome_none, if_neg Bool.false_ne_true] at h
      split at h
      · next source sourceHint hProducer =>
          exact Or.inr ⟨source, sourceHint, hProducer, hRead, h⟩
      · exact absurd h pure_ne_error

/-- A hint that has been run was run before, or its outputs have been
recorded. -/
theorem runHint_eq_ok
    (h : solver.runHint view (levels + 1) number hint progress = .ok next) :
    ((∃ value, view.get progress hint.firstWire = .ok (some value)) ∧
      next = progress) ∨
    view.get progress hint.firstWire = .ok none ∧ ∃ settled inputs outputs,
      hint.terms.foldlM
        (solver.settleTerm view (solver.runHint view levels)) progress =
        .ok settled ∧
      hint.inputs.mapM (solver.evaluateInput view settled) = .ok inputs ∧
      solver.applyHint hint inputs = .ok outputs ∧
        next = settled.record number hint outputs := by
  rw [runHint_succ] at h
  simp only [bind_eq_ok, Outcome.ofFaulty_eq_ok] at h
  obtain ⟨read, hRead, h⟩ := h
  cases read with
  | some value =>
      rw [Option.isSome_some, if_pos rfl, pure_eq_ok] at h
      exact Or.inl ⟨⟨value, hRead⟩, h.symm⟩
  | none =>
      rw [Option.isSome_none, if_neg Bool.false_ne_true] at h
      simp only [bind_eq_ok, Outcome.ofExcept_eq_ok, pure_eq_ok] at h
      obtain ⟨settled, hFold, inputs, hInputs, outputs, hOutputs, hNext⟩ := h
      exact Or.inr ⟨hRead, settled, inputs, outputs, hFold, hInputs,
        hOutputs, hNext.symm⟩

/-- A hint fails when its first output cannot be looked up, or in one of three
stages: seeing to what it reads, evaluating its inputs, applying its
function. -/
theorem runHint_eq_error
    (h : solver.runHint view (levels + 1) number hint progress =
      .error failure) :
    (∃ cause, view.get progress hint.firstWire = .error cause) ∨
    view.get progress hint.firstWire = .ok none ∧
      (hint.terms.foldlM
        (solver.settleTerm view (solver.runHint view levels)) progress =
          .error failure ∨
        ∃ settled, hint.terms.foldlM
          (solver.settleTerm view (solver.runHint view levels))
            progress = .ok settled ∧
          (hint.inputs.mapM (solver.evaluateInput view settled) =
            .error failure ∨
            ∃ inputs e, hint.inputs.mapM (solver.evaluateInput view settled) =
              .ok inputs ∧
              failure = .reported e ∧
                solver.applyHint hint inputs = .error e)) := by
  rw [runHint_succ] at h
  simp only [bind_eq_error, Outcome.ofFaulty_eq_error, Outcome.ofFaulty_eq_ok]
    at h
  rcases h with ⟨cause, -, hRead⟩ | ⟨read, hRead, h⟩
  · exact Or.inl ⟨cause, hRead⟩
  cases read with
  | some value =>
      rw [Option.isSome_some, if_pos rfl] at h
      exact absurd h pure_ne_error
  | none =>
      rw [Option.isSome_none, if_neg Bool.false_ne_true] at h
      simp only [bind_eq_error, Outcome.ofExcept_eq_error, pure_ne_error,
        and_false, exists_false, or_false] at h
      refine Or.inr ⟨hRead, ?_⟩
      rcases h with hFold | ⟨settled, hFold,
        hInputs | ⟨inputs, hInputs, e, hReported, hApply⟩⟩
      · exact Or.inl hFold
      · exact Or.inr ⟨settled, hFold, Or.inl hInputs⟩
      · exact Or.inr ⟨settled, hFold,
          Or.inr ⟨inputs, e, hInputs, hReported, hApply⟩⟩

end Solver

namespace Solver.Turn

variable {solver : Solver p} {resolution : Resolution} {node : Nat}
  {c : Constraint} {cost : NodeCost} {view : View p}
  (hTurn : solver.Turn resolution node c cost view)
include hTurn

section Record

variable {number : Nat} {hint : Hint p} {progress : Progress p}
  {inputs outputs : List (Fp p)}
  (hGet : solver.system.hints[number]? = some hint)
  (hOwn : ∀ wire ∈ hint.wires, resolution.resolver[wire]? = some node)
  (hFresh : ∀ wire ∈ hint.wires, progress.writes.lookup wire = none)
  (hInputs : hint.inputs.mapM (solver.evaluateInput view progress) = .ok inputs)
  (hOutputs : solver.applyHint hint inputs = .ok outputs)
include hGet hOwn hFresh hInputs hOutputs

/-- Once all it reads has been seen to, a hint is run by writing what its
function yields. -/
private theorem ran_record :
    (progress.record number hint outputs).Ran solver resolution node
      view hint := by
  have hFirst := hTurn.wellFormed.firstWire_mem hGet
  have hNodup := hTurn.wellFormed.outputs_nodup number hint hGet
  have hLength := length_applyHint hOutputs
  have hGrow := Progress.grow_record number outputs hFresh
  obtain ⟨hSeen, hEvaluate⟩ := mapM_evaluateInput_sound hInputs
  exact
    { outputs := fun wire hWire =>
        Progress.isSome_lookup_record hNodup hLength hWire
      inputs := by
        intro term hTerm hOwner
        obtain ⟨value, hValue⟩ := hSeen term hTerm
        rw [hTurn.get_own hOwner] at hValue
        injection hValue with hValue
        apply hGrow.isSome
        rw [hValue]
        rfl
      holds := by
        intro wires hWires
        refine ⟨inputs, outputs, ?_, hOutputs,
          Progress.outputs_eq_of_assigns hNodup hLength hWires⟩
        apply hEvaluate
        intro term hTerm
        exact hTurn.reads
          (hTurn.nodeResolved.hintSettled number hint hGet hint.firstWire hFirst
          (hOwn hint.firstWire hFirst) term hTerm) (hGrow.assigns hWires) }

private theorem valid_record
    (hValid : progress.Valid solver resolution node view) :
    (progress.record number hint outputs).Valid solver resolution
      node view where
  origin := by
    intro wire hSome
    by_cases hWire : wire ∈ hint.wires
    · exact ⟨hOwn wire hWire, number, hint, hGet, hWire⟩
    · apply hValid.origin wire
      rwa [Progress.lookup_record_of_notMem hWire] at hSome
  ran := by
    intro number' hint' hGet' wire hWire' hSome
    by_cases hWire : wire ∈ hint.wires
    · obtain ⟨-, rfl⟩ :=
        hTurn.wellFormed.producer_unique hGet hWire hGet' hWire'
      exact hTurn.ran_record hGet hOwn hFresh hInputs hOutputs
    · rw [Progress.lookup_record_of_notMem hWire] at hSome
      exact (hValid.ran number' hint' hGet' wire hWire' hSome).grow
        (Progress.grow_record number outputs hFresh)
  nodup_writes :=
    Progress.nodup_record (hTurn.wellFormed.outputs_nodup number hint hGet)
      (length_applyHint hOutputs) hFresh hValid.nodup_writes
  nodup_hints := by
    refine List.nodup_cons.mpr ⟨?_, hValid.nodup_hints⟩
    intro hRan
    obtain ⟨hint', hGet', hWritten⟩ := (hValid.mem_hints number).mp hRan
    rw [hGet] at hGet'
    injection hGet' with hSame
    rw [← hSame, hFresh hint.firstWire (hTurn.wellFormed.firstWire_mem hGet)]
      at hWritten
    cases hWritten
  mem_hints := by
    intro number'
    show number' ∈ number :: progress.hints ↔ _
    rw [List.mem_cons, hValid.mem_hints]
    constructor
    · rintro (rfl | ⟨hint', hGet', hWritten⟩)
      · exact ⟨hint, hGet,
          (hTurn.ran_record hGet hOwn hFresh hInputs hOutputs).outputs _
          (hTurn.wellFormed.firstWire_mem hGet)⟩
      · exact ⟨hint', hGet',
          (Progress.grow_record number outputs hFresh).isSome hWritten⟩
    · rintro ⟨hint', hGet', hWritten⟩
      by_cases hWire : hint'.firstWire ∈ hint.wires
      · obtain ⟨hSame, -⟩ := hTurn.wellFormed.producer_unique hGet'
          (hTurn.wellFormed.firstWire_mem hGet') hGet hWire
        exact Or.inl hSame
      · rw [Progress.lookup_record_of_notMem hWire] at hWritten
        exact Or.inr ⟨hint', hGet', hWritten⟩

end Record

/-- What has been written when the terms of hint `number` are gone through: what
was written before, and outputs of hints strictly above it. -/
structure Settling (solver : Solver p) (resolution : Resolution) (node : Nat)
    (view : View p) (number : Nat) (before current : Progress p) : Prop where
  valid : current.Valid solver resolution node view
  grow : WritesGrow before.writes current.writes
  origin : ∀ wire, (current.writes.lookup wire).isSome →
    (before.writes.lookup wire).isSome ∨
    ∃ source sourceHint, solver.system.hints[source]? = some sourceHint ∧
      wire ∈ sourceHint.wires ∧
        Relation.TransGen solver.system.HintReads source number

namespace Settling

variable {number : Nat} {before current next : Progress p}

omit hTurn in
private theorem start (h : before.Valid solver resolution node view) :
    Settling solver resolution node view number before before where
  valid := h
  grow := WritesGrow.refl _
  origin := fun _ hWritten => Or.inl hWritten

omit hTurn in
/-- Running a hint that hint `number` reads goes on in the same way. -/
private theorem run {source : Nat}
    (h : Settling solver resolution node view number before current)
    (hReads : solver.system.HintReads source number)
    (hValid : next.Valid solver resolution node view)
    (hGrow : WritesGrow current.writes next.writes)
    (hNew : ∀ wire, (next.writes.lookup wire).isSome →
      (current.writes.lookup wire).isSome ∨
      solver.system.OutputAbove source wire) :
    Settling solver resolution node view number before next where
  valid := hValid
  grow := h.grow.trans hGrow
  origin := by
    intro wire hWritten
    rcases hNew wire hWritten with hOld | ⟨above, aboveHint, hGet, hMem, hChain⟩
    · exact h.origin wire hOld
    · exact Or.inr ⟨above, aboveHint, hGet, hMem,
        Relation.TransGen.tail' hChain hReads⟩

/-- The terms of a hint that has not been run write none of its outputs: it
would lie strictly above itself. -/
private theorem fresh {hint : Hint p}
    (h : Settling solver resolution node view number before current)
    (hGet : solver.system.hints[number]? = some hint)
    (hOwn : ∀ wire ∈ hint.wires, resolution.resolver[wire]? = some node)
    (hValid : before.Valid solver resolution node view)
    (hUnknown : before.writes.lookup hint.firstWire = none) {wire : Nat}
    (hWire : wire ∈ hint.wires) : current.writes.lookup wire = none := by
  have hFirst := hTurn.wellFormed.firstWire_mem hGet
  cases hWritten : current.writes.lookup wire with
  | none => rfl
  | some value =>
      rcases h.origin wire (by rw [hWritten]; rfl) with
        hOld | ⟨source, sourceHint, hSource, hMem, hChain⟩
      · have hOutput := (hValid.ran number hint hGet wire hWire hOld).outputs
          hint.firstWire hFirst
        rw [hUnknown] at hOutput
        cases hOutput
      · obtain ⟨hSame, -⟩ :=
          hTurn.wellFormed.producer_unique hSource hMem hGet hWire
        subst hSame
        have hAcc :=
          hTurn.resolved.accessible source hint hGet hint.firstWire hFirst node
            (hOwn hint.firstWire hFirst)
        exact absurd hChain (not_rel_of_acc hAcc.transGen)

end Settling

/-- What running one of the hints that hint `number` reads has to leave behind,
so that the terms of hint `number` can be seen to. -/
def RunsSource (solver : Solver p) (resolution : Resolution) (node : Nat)
    (view : View p)
    (run : Nat → Hint p → Progress p → Outcome SolveError (Progress p)) :
    Prop :=
  ∀ (source : Nat) (sourceHint : Hint p) (current next : Progress p),
    solver.system.hints[source]? = some sourceHint →
    (∀ wire ∈ sourceHint.wires, resolution.resolver[wire]? = some node) →
    current.Valid solver resolution node view →
      run source sourceHint current = .ok next →
      next.Valid solver resolution node view ∧
        WritesGrow current.writes next.writes ∧
        next.Ran solver resolution node view sourceHint ∧
        ∀ wire, (next.writes.lookup wire).isSome →
          (current.writes.lookup wire).isSome ∨
          solver.system.OutputAbove source wire

/-- Seeing to the terms of a hint leaves run all hints that it reads and the
constraint resolves. -/
theorem settle_sound {number : Nat} {hint : Hint p}
    {progress settled : Progress p}
    {run : Nat → Hint p → Progress p → Outcome SolveError (Progress p)}
    (hRun : RunsSource solver resolution node view run)
    (hGet : solver.system.hints[number]? = some hint)
    (hOwn : ∀ wire ∈ hint.wires, resolution.resolver[wire]? = some node)
    {terms : List Term} (hTerms : ∀ term ∈ terms, term ∈ hint.terms)
    (hValid : progress.Valid solver resolution node view)
    (h : terms.foldlM (solver.settleTerm view run) progress = .ok settled) :
    Settling solver resolution node view number progress settled ∧
      ∀ term ∈ terms, resolution.resolver[term.wire]? = some node →
        solver.system.hintFor? term.wire ≠ none →
          (settled.writes.lookup term.wire).isSome := by
  have hSettledFor :=
    hTurn.nodeResolved.hintSettled number hint hGet hint.firstWire
      (hTurn.wellFormed.firstWire_mem hGet)
        (hOwn _ (hTurn.wellFormed.firstWire_mem hGet))
  obtain ⟨hSettling, hProduced, -⟩ := foldlM_ok_collect
    (Settling solver resolution node view number progress)
    (fun term current => resolution.resolver[term.wire]? = some node →
      solver.system.hintFor? term.wire ≠ none →
        (current.writes.lookup term.wire).isSome)
    h (Settling.start hValid) (by
      intro term hTerm current next hCurrent hNext
      rcases settleTerm_eq_ok hNext with
        ⟨rfl, hDone⟩ | ⟨source, sourceHint, hProducer, hUnseen, hNext⟩
      · refine ⟨hCurrent, ?_, fun _ hOther => hOther⟩
        intro hOwner hProduced
        rcases hDone with ⟨value, hSeen⟩ | hPlain
        · rw [hTurn.get_own hOwner] at hSeen
          injection hSeen with hSeen
          rw [hSeen]
          rfl
        · exact absurd hPlain hProduced
      · obtain ⟨hSource, hWire⟩ :=
          hTurn.wellFormed.hintFor?_eq_some_iff.mp hProducer
        obtain ⟨hOwner, -⟩ :=
          hTurn.get_eq_none (hSettledFor term (hTerms term hTerm)) hUnseen
        obtain ⟨hDone, hStep, hRan, hNew⟩ :=
          hRun source sourceHint current next hSource
            (fun wire hMem => (hTurn.resolved.whole source sourceHint hSource
              wire hMem term.wire hWire).trans hOwner)
            hCurrent.valid hNext
        exact ⟨hCurrent.run ⟨hint, sourceHint, hGet, term, hTerms term hTerm,
          hProducer⟩ hDone hStep
            hNew,
          fun _ _ => hRan.outputs term.wire hWire,
          fun other hOther hOwner' hProduced =>
            hStep.isSome (hOther hOwner' hProduced)⟩)
  exact ⟨hSettling, hProduced⟩

/-- Running a hint that the constraint resolves leaves it run, and writes
nothing but outputs of hints above it. -/
theorem runHint_sound {levels number : Nat} {hint : Hint p}
    {progress progress' : Progress p}
    (hGet : solver.system.hints[number]? = some hint)
    (hOwn : ∀ wire ∈ hint.wires, resolution.resolver[wire]? = some node)
    (hValid : progress.Valid solver resolution node view)
    (h : solver.runHint view levels number hint progress = .ok progress') :
    progress'.Valid solver resolution node view ∧
      WritesGrow progress.writes progress'.writes ∧
      progress'.Ran solver resolution node view hint ∧
      ∀ wire, (progress'.writes.lookup wire).isSome →
        (progress.writes.lookup wire).isSome ∨
        solver.system.OutputAbove number wire := by
  induction levels generalizing number hint progress progress' with
  | zero =>
      unfold runHint at h
      exact absurd h Outcome.abandon_ne_ok
  | succ levels ih =>
      have hFirst := hTurn.wellFormed.firstWire_mem hGet
      have hSeen : view.get progress hint.firstWire =
          .ok (progress.writes.lookup hint.firstWire) :=
            hTurn.get_own (hOwn hint.firstWire hFirst)
      rcases runHint_eq_ok h with
        ⟨⟨value, hKnown⟩, rfl⟩ | ⟨hUnknown, settled, inputs, outputs, hFold,
          hInputs, hOutputs, rfl⟩
      · rw [hKnown] at hSeen
        injection hSeen with hSeen
        refine ⟨hValid, WritesGrow.refl _, ?_,
          fun wire hWritten => Or.inl hWritten⟩
        exact hValid.ran number hint hGet hint.firstWire hFirst
          (by rw [← hSeen]; rfl)
      · rw [hUnknown] at hSeen
        injection hSeen with hSeen
        -- The hints that are run for the terms lie strictly above this one.
        obtain ⟨hSettled, -⟩ := hTurn.settle_sound
          (fun _ _ _ _ hSource hSourceOwn hCurrent hNext =>
            ih hSource hSourceOwn hCurrent hNext)
          hGet hOwn (fun _ hTerm => hTerm) hValid hFold
        have hFresh : ∀ wire ∈ hint.wires, settled.writes.lookup wire = none :=
          fun wire hWire =>
            hSettled.fresh hTurn hGet hOwn hValid hSeen.symm hWire
        refine ⟨hTurn.valid_record hGet hOwn hFresh hInputs hOutputs
          hSettled.valid, hSettled.grow.trans (Progress.grow_record _ _ hFresh),
          hTurn.ran_record hGet hOwn hFresh hInputs hOutputs, ?_⟩
        intro wire hWritten
        by_cases hWire : wire ∈ hint.wires
        · exact Or.inr ⟨number, hint, hGet, hWire, Relation.ReflTransGen.refl⟩
        · rw [Progress.lookup_record_of_notMem hWire] at hWritten
          rcases hSettled.origin wire hWritten with
            hOld | ⟨source, sourceHint, hSource, hMem, hChain⟩
          · exact Or.inl hOld
          · exact Or.inr ⟨source, sourceHint, hSource, hMem,
              hChain.to_reflTransGen⟩

end Solver.Turn

end RankOne
