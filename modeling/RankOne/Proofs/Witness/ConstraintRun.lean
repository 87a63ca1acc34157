import RankOne.Proofs.Witness.HintRun

/-!
# Running one constraint

A constraint that is run when its turn comes writes exactly the wires that it
resolves, and the row it reports has the values of its expressions under every
full assignment that gives the known and the written wires their values. Wires
that other constraints of its task have written make no difference to it.
-/

namespace RankOne

/-- The terms of a constraint are those of its three expressions. -/
theorem Constraint.mem_terms (c : Constraint) {terms : Expression}
    (h : terms ∈ [c.left, c.right, c.output]) :
    ∀ term ∈ terms, term ∈ c.terms := by
  intro term hTerm
  simp only [List.mem_cons, List.not_mem_nil, or_false] at h
  unfold Constraint.terms
  simp only [List.mem_append]
  rcases h with rfl | rfl | rfl
  · exact Or.inl (Or.inl hTerm)
  · exact Or.inl (Or.inr hTerm)
  · exact Or.inr hTerm

variable {p : Nat} [Modulus p]

/-- What the record of a constraint guarantees. -/
structure Step.Sound (solver : Solver p) (resolution : Resolution)
    (known : Array (Option (Fp p))) (c : Constraint) (step : Step p) :
    Prop where
  writes : ∀ wire, (step.writes.lookup wire).isSome ↔
    resolution.resolver[wire]? = some step.constraint
  row : ∀ wires, Assigns wires known step.writes →
    solver.system.evaluate wires c.left = .ok step.row.left ∧
      solver.system.evaluate wires c.right = .ok step.row.right ∧
      solver.system.evaluate wires c.output = .ok step.row.output
  holds : step.row.left * step.row.right = step.row.output
  hints : ∀ (number : Nat) (hint : Hint p),
    solver.system.hints[number]? = some hint →
    ∀ wire ∈ hint.wires, resolution.resolver[wire]? = some step.constraint →
      ∀ wires, Assigns wires known step.writes → solver.HintHolds wires hint
  nodup_writes : (step.writes.map Prod.fst).Nodup
  nodup_hints : step.hints.Nodup
  mem_hints : ∀ number, number ∈ step.hints ↔ ∃ hint : Hint p,
    solver.system.hints[number]? = some hint ∧
      resolution.resolver[hint.firstWire]? = some step.constraint

/-! ## Taking a run apart -/

namespace Solver

variable {solver : Solver p} {view : View p} {node : Nat} {c : Constraint}

/-- A constraint that has been run has had its hints run, its expressions summed
and its equation solved. -/
theorem runConstraint_eq_ok {step : Step p}
    (hGet : solver.system.constraints[node]? = some c)
    (h : solver.runConstraint view node = .ok step) :
    step.constraint = node ∧
      ∃ (progress : Progress p) (left right output : PartialSum p)
      (write : Option (Nat × Fp p)),
        step.writes = write.toList ++ progress.writes ∧
        step.hints = progress.hints ∧
        c.terms.foldlM (solver.runHintOf view) {} = .ok progress ∧
        solver.sumKnown view progress node c.left = .ok left ∧
        solver.sumKnown view progress node c.right = .ok right ∧
        solver.sumKnown view progress node c.output = .ok output ∧
        PartialSum.solve node left right output = .ok (write, step.row) := by
  unfold runConstraint at h
  rw [hGet] at h
  simp only [bind_eq_ok, Outcome.ofExcept_eq_ok, pure_eq_ok] at h
  obtain ⟨progress, hHints, left, hLeft, right, hRight, output, hOutput,
    ⟨write, row⟩, hSolve, rfl⟩ := h
  exact ⟨rfl, progress, left, right, output, write, rfl, rfl, hHints, hLeft,
    hRight, hOutput, hSolve⟩

/-- A constraint fails in one of three stages: running its hints, summing one of
its expressions, solving its equation. -/
theorem runConstraint_eq_error {failure : Failure SolveError}
    (hGet : solver.system.constraints[node]? = some c)
    (h : solver.runConstraint view node = .error failure) :
    c.terms.foldlM (solver.runHintOf view) {} = .error failure ∨
    ∃ progress, c.terms.foldlM (solver.runHintOf view) {} = .ok progress ∧
      ((∃ terms ∈ [c.left, c.right, c.output],
          solver.sumKnown view progress node terms = .error failure) ∨
        ∃ left right output e,
          solver.sumKnown view progress node c.left = .ok left ∧
          solver.sumKnown view progress node c.right = .ok right ∧
          solver.sumKnown view progress node c.output = .ok output ∧
          failure = .reported e ∧
            PartialSum.solve node left right output = .error e) := by
  unfold runConstraint at h
  rw [hGet] at h
  simp only [bind_eq_error, Outcome.ofExcept_eq_error, pure_ne_error, and_false,
    exists_false, or_false] at h
  rcases h with hHints | ⟨progress, hHints,
    hLeft | ⟨left, hLeft, hRight | ⟨right, hRight,
    hOutput | ⟨output, hOutput, e, hReported, hSolve⟩⟩⟩⟩
  · exact Or.inl hHints
  · exact Or.inr ⟨progress, hHints, Or.inl ⟨c.left, by simp, hLeft⟩⟩
  · exact Or.inr ⟨progress, hHints, Or.inl ⟨c.right, by simp, hRight⟩⟩
  · exact Or.inr ⟨progress, hHints, Or.inl ⟨c.output, by simp, hOutput⟩⟩
  · exact Or.inr ⟨progress, hHints, Or.inr
      ⟨left, right, output, e, hLeft, hRight, hOutput, hReported, hSolve⟩⟩

end Solver

namespace Solver.Turn

variable {solver : Solver p} {resolution : Resolution} {node : Nat}
  {c : Constraint} {cost : NodeCost} {view : View p}
  (hTurn : solver.Turn resolution node c cost view)
include hTurn

/-! ## Its hints -/

omit [Modulus p] in
/-- The outputs of a hint that another constraint has run are known. -/
theorem get_firstWire (progress : Progress p) {wire number : Nat}
    {hint : Hint p}
    (hProducer : solver.system.hintFor? wire = some (number, hint))
    (hWire : SettledFor solver.system.toValidSystem resolution.resolver
      cost.dependencies node wire)
    (hOther : resolution.resolver[wire]? ≠ some node) :
    ∃ value, view.get progress hint.firstWire = .ok (some value) := by
  obtain ⟨hGet, hMem⟩ := hTurn.wellFormed.hintFor?_eq_some_iff.mp hProducer
  have hOwner := hTurn.resolved.whole number hint hGet hint.firstWire
    (hTurn.wellFormed.firstWire_mem hGet) wire hMem
  have hSettled : SettledFor solver.system.toValidSystem resolution.resolver
      cost.dependencies node hint.firstWire := by
    rcases hWire with hInput | ⟨owner, hOwned, hAt⟩
    · have hInternal :=
        (hTurn.wellFormed.outputs_internal number hint hGet wire hMem).1
      omega
    · exact Or.inr ⟨owner, hOwner.trans hOwned, hAt⟩
  obtain ⟨value, -, hSeen⟩ := hTurn.get_other hSettled (hOwner ▸ hOther)
  exact ⟨value, hSeen progress⟩

/-- After a term of the constraint, the hint that produces its wire has been
run, if the constraint resolves it. -/
theorem runHintOf_sound {term : Term} {progress progress' : Progress p}
    (hTerm : SettledFor solver.system.toValidSystem resolution.resolver
      cost.dependencies node term.wire)
    (hValid : progress.Valid solver resolution node view)
    (h : solver.runHintOf view progress term = .ok progress') :
    progress'.Valid solver resolution node view ∧
      WritesGrow progress.writes progress'.writes ∧
      ∀ number hint, solver.system.hintFor? term.wire = some (number, hint) →
        resolution.resolver[term.wire]? = some node →
          progress'.Ran solver resolution node view hint := by
  unfold runHintOf at h
  split at h
  · next number hint hProducer =>
      obtain ⟨hGet, hWire⟩ := hTurn.wellFormed.hintFor?_eq_some_iff.mp hProducer
      have hWhole := hTurn.resolved.whole number hint hGet
      by_cases hOwner : resolution.resolver[term.wire]? = some node
      · obtain ⟨hDone, hGrow, hRan, -⟩ := hTurn.runHint_sound hGet
          (fun wire hMem =>
            (hWhole wire hMem term.wire hWire).trans hOwner) hValid h
        refine ⟨hDone, hGrow, ?_⟩
        intro number' hint' hSame _
        rw [hProducer] at hSame
        injection hSame with hSame
        injection hSame with _ hSame
        exact hSame ▸ hRan
      · -- Another constraint has run the hint: its outputs are known, and
        -- nothing happens.
        obtain ⟨value, hSeen⟩ :=
          hTurn.get_firstWire progress hProducer hTerm hOwner
        rcases runHint_eq_ok h with ⟨-, rfl⟩ | ⟨hUnseen, -⟩
        · exact ⟨hValid, WritesGrow.refl _,
            fun _ _ _ hOwned => absurd hOwned hOwner⟩
        · rw [hSeen] at hUnseen
          injection hUnseen with hUnseen
          cases hUnseen
  · next hPlain =>
      injection h with h
      subst h
      refine ⟨hValid, WritesGrow.refl _, ?_⟩
      intro number hint hProducer
      rw [hPlain] at hProducer
      cases hProducer

/-- After some terms of the constraint, the hints that produce their wires have
been run, as far as the constraint resolves them. -/
theorem runHints_sound {terms : List Term} {progress progress' : Progress p}
    (hTerms : ∀ term ∈ terms, term ∈ c.terms)
    (hValid : progress.Valid solver resolution node view)
    (h : terms.foldlM (solver.runHintOf view) progress = .ok progress') :
    progress'.Valid solver resolution node view ∧
      ∀ term ∈ terms, ∀ number hint,
        solver.system.hintFor? term.wire = some (number, hint) →
        resolution.resolver[term.wire]? = some node →
          progress'.Ran solver resolution node view hint := by
  obtain ⟨hDone, hRan, -⟩ := foldlM_ok_collect
    (fun current => current.Valid solver resolution node view)
    (fun term current => ∀ number hint,
      solver.system.hintFor? term.wire = some (number, hint) →
        resolution.resolver[term.wire]? = some node →
          current.Ran solver resolution node view hint)
    h hValid (by
      intro term hTerm current next hCurrent hNext
      obtain ⟨hDone, hGrow, hRan⟩ := hTurn.runHintOf_sound
        (hTurn.nodeResolved.settled term (hTerms term hTerm)) hCurrent hNext
      exact ⟨hDone, hRan, fun other hOther number hint hProducer hOwner =>
        (hOther number hint hProducer hOwner).grow hGrow⟩)
  exact ⟨hDone, hRan⟩

/-- When a hint has been run, so have all hints above it that the constraint
resolves. -/
private theorem ran_above {progress : Progress p} {number target : Nat}
    {targetHint : Hint p} (hValid : progress.Valid solver resolution node view)
    (hTarget : solver.system.hints[target]? = some targetHint)
    (hTargetOwner : ∀ wire ∈ targetHint.wires,
      resolution.resolver[wire]? = some node)
    (hRan : progress.Ran solver resolution node view targetHint)
    (hAbove : Relation.ReflTransGen solver.system.HintReads number target) :
    ∀ hint, solver.system.hints[number]? = some hint → ∀ wire ∈ hint.wires,
      resolution.resolver[wire]? = some node →
        (progress.writes.lookup wire).isSome := by
  induction hAbove using Relation.ReflTransGen.head_induction_on with
  | refl =>
      intro hint hGet wire hWire _
      rw [hTarget] at hGet
      injection hGet with hSame
      subst hSame
      exact hRan.outputs wire hWire
  | head hReads hChain ih =>
      intro hint hGet wire hWire hOwner
      obtain ⟨reader, sourceHint, hReader, term, hTerm, hProducer⟩ := hReads
      obtain ⟨hSource, hMem⟩ :=
        hTurn.wellFormed.hintFor?_eq_some_iff.mp hProducer
      rw [hGet] at hSource
      injection hSource with hSame
      subst hSame
      -- The reader is resolved between this hint and the target, hence by the
      -- same constraint.
      have hReaderWire := hTurn.wellFormed.firstWire_mem hReader
      obtain ⟨middle, hMiddleLe, hMiddle⟩ :=
        hTurn.resolved.owner_le_of_above hTurn.wellFormed
          hReader hTarget hChain hReaderWire
            (hTurn.wellFormed.firstWire_mem hTarget)
          (hTargetOwner _ (hTurn.wellFormed.firstWire_mem hTarget))
      obtain ⟨lower, hLowerLe, hLower⟩ :=
        hTurn.resolved.owner_le_of_above hTurn.wellFormed hGet hReader
          (Relation.ReflTransGen.single
            ⟨reader, hint, hReader, term, hTerm, hProducer⟩)
          hWire hReaderWire hMiddle
      rw [hOwner] at hLower
      injection hLower with hLower
      have hSameNode : middle = node := by omega
      subst hSameNode
      have hReaderRan :=
        hValid.ran _ reader hReader reader.firstWire hReaderWire
          (ih reader hReader reader.firstWire hReaderWire hMiddle)
      have hTermOwner : resolution.resolver[term.wire]? = some middle :=
        (hTurn.resolved.whole _ hint hGet term.wire hMem wire hWire).trans
          hOwner
      have hWritten := hReaderRan.inputs term hTerm hTermOwner
      exact (hValid.ran _ hint hGet term.wire hMem hWritten).outputs wire hWire

/-- Once the hints of the constraint have been run, everything that it resolves
is written, save a plain wire that it mentions. -/
theorem written_or_plain {progress : Progress p} {wire : Nat}
    (hValid : progress.Valid solver resolution node view)
    (hRan : ∀ term ∈ c.terms, ∀ number hint,
      solver.system.hintFor? term.wire = some (number, hint) →
        resolution.resolver[term.wire]? = some node →
          progress.Ran solver resolution node view hint)
    (hOwner : resolution.resolver[wire]? = some node) :
    (progress.writes.lookup wire).isSome ∨
      ∃ term ∈ c.terms, term.wire = wire := by
  obtain ⟨term, hTerm, ⟨-, rfl⟩ | ⟨target, targetHint, hProducer, hAbove⟩⟩ :=
    hTurn.nodeResolved.drawn wire hOwner
  · exact Or.inr ⟨term, hTerm, rfl⟩
  · obtain ⟨number, hint, hGet, hWire, hChain⟩ := hAbove
    obtain ⟨hTarget, hMem⟩ := hTurn.wellFormed.hintFor?_eq_some_iff.mp hProducer
    -- The wire of the term is resolved no later than this constraint, and no
    -- earlier than `wire`.
    have hTermOwner : resolution.resolver[term.wire]? = some node := by
      rcases hTurn.nodeResolved.settled term hTerm
        with hInput | ⟨owner, hOwned, hAt⟩
      · have hInternal :=
          (hTurn.wellFormed.outputs_internal target targetHint hTarget
            term.wire hMem).1
        omega
      · obtain ⟨earlier, hLe, hEarlier⟩ :=
          hTurn.resolved.owner_le_of_above hTurn.wellFormed
            hGet hTarget hChain hWire hMem hOwned
        rw [hOwner] at hEarlier
        injection hEarlier with hEarlier
        rcases hAt with rfl | hDependency
        · exact hOwned
        · have hLess := hTurn.nodeResolved.earlier owner hDependency
          omega
    have hTargetOwner : ∀ output ∈ targetHint.wires,
        resolution.resolver[output]? = some node := fun output hOutput =>
      (hTurn.resolved.whole target targetHint hTarget output hOutput
        term.wire hMem).trans hTermOwner
    exact Or.inl (hTurn.ran_above hValid hTarget hTargetOwner
      (hRan term hTerm target targetHint hProducer hTermOwner) hChain hint hGet
        wire hWire hOwner)

/-! ## The whole constraint -/

omit hTurn

/-- What is known when the equation of a constraint has been solved: its hints
have been run, the sums hold what is known of its expressions, and the wire that
is left open is written. -/
structure Solved (solver : Solver p) (resolution : Resolution) (node : Nat)
    (c : Constraint) (view : View p) (progress : Progress p)
    (left right output : PartialSum p) (value : Fp p)
    (write : Option (Nat × Fp p)) : Prop where
  valid : progress.Valid solver resolution node view
  ran : ∀ term ∈ c.terms, ∀ number hint,
    solver.system.hintFor? term.wire = some (number, hint) →
    resolution.resolver[term.wire]? = some node →
      progress.Ran solver resolution node view hint
  leftSums : left.Sums solver view progress c.left
  rightSums : right.Sums solver view progress c.right
  outputSums : output.Sums solver view progress c.output
  closes : ∀ partialSum ∈ [left, right, output], ∀ wire coefficient,
    partialSum.unknown = some (wire, coefficient) → write = some (wire, value)
  opens : ∀ wire value', write = some (wire, value') →
    ∃ partialSum ∈ [left, right, output],
    ∃ coefficient, partialSum.unknown = some (wire, coefficient)

namespace Solved

variable {progress : Progress p} {left right output : PartialSum p}
  {value : Fp p} {write : Option (Nat × Fp p)}
  (h :
    Solved solver resolution node c view progress left right output value write)
include h

/-- The three sums are sums of terms of the constraint. -/
private theorem sums {partialSum : PartialSum p}
    (hMem : partialSum ∈ [left, right, output]) :
    ∃ terms : Expression, (∀ term ∈ terms, term ∈ c.terms) ∧
      partialSum.Sums solver view progress terms := by
  simp only [List.mem_cons, List.not_mem_nil, or_false] at hMem
  rcases hMem with rfl | rfl | rfl
  · exact ⟨c.left, c.mem_terms (by simp), h.leftSums⟩
  · exact ⟨c.right, c.mem_terms (by simp), h.rightSums⟩
  · exact ⟨c.output, c.mem_terms (by simp), h.outputSums⟩

/-- What the hints have not settled is left open by some sum. -/
private theorem covers {term : Term} (hTerm : term ∈ c.terms) :
    ∃ partialSum ∈ [left, right, output],
      (∃ seen, view.get progress term.wire = .ok (some seen)) ∨
        ∃ coefficient, partialSum.unknown = some (term.wire, coefficient) := by
  unfold Constraint.terms at hTerm
  simp only [List.mem_append] at hTerm
  rcases hTerm with (hTerm | hTerm) | hTerm
  · exact ⟨left, by simp, h.leftSums.covers term hTerm⟩
  · exact ⟨right, by simp, h.rightSums.covers term hTerm⟩
  · exact ⟨output, by simp, h.outputSums.covers term hTerm⟩

include hTurn

/-- A wire that a sum leaves open is resolved by the constraint, has not been
written by a hint, and is written now. -/
private theorem opened {partialSum : PartialSum p}
    (hMem : partialSum ∈ [left, right, output]) {wire : Nat}
    {coefficient : Fp p}
    (hOpen : partialSum.unknown = some (wire, coefficient)) :
    resolution.resolver[wire]? = some node ∧
      progress.writes.lookup wire = none ∧
      (write.toList ++ progress.writes).lookup wire = some value := by
  obtain ⟨terms, hTerms, hSums⟩ := h.sums hMem
  obtain ⟨⟨term, hTerm, hWire⟩, hUnseen⟩ := hSums.origin wire coefficient hOpen
  have hSettled := hTurn.nodeResolved.settled term (hTerms term hTerm)
  obtain ⟨hOwner, hUnwritten⟩ := hTurn.get_eq_none (hWire ▸ hSettled) hUnseen
  refine ⟨hOwner, hUnwritten, ?_⟩
  rw [h.closes partialSum hMem wire coefficient hOpen]
  exact List.lookup_cons_self

/-- The last write overwrites nothing. -/
theorem grow :
    WritesGrow progress.writes (write.toList ++ progress.writes) := by
  cases hCase : write with
  | none => exact WritesGrow.refl _
  | some written =>
      obtain ⟨wire, writtenValue⟩ := written
      obtain ⟨partialSum, hMem, coefficient, hOpen⟩ :=
        h.opens wire writtenValue hCase
      obtain ⟨-, hUnwritten, -⟩ := h.opened hTurn hMem hOpen
      intro other seen hSeen
      have hDifferent : other ≠ wire := by
        intro hSame
        rw [hSame, hUnwritten] at hSeen
        cases hSeen
      show List.lookup other ((wire, writtenValue) :: progress.writes) =
        some seen
      rw [List.lookup_cons, beq_false_of_ne hDifferent]
      exact hSeen

/-- Under every assignment of the known and the written wires, an expression of
the constraint has the value of its sum with the open wire filled in. -/
private theorem evaluate {wires : Array (Fp p)}
    (hWires : Assigns wires view.known (write.toList ++ progress.writes))
    {partialSum : PartialSum p} (hMem : partialSum ∈ [left, right, output])
    {terms : Expression} (hTerms : ∀ term ∈ terms, term ∈ c.terms)
    (hSums : partialSum.Sums solver view progress terms) :
    solver.system.evaluate wires terms = .ok (partialSum.total value) := by
  apply hSums.evaluate
  · intro term hTerm
    exact hTurn.reads (hTurn.nodeResolved.settled term (hTerms term hTerm))
      ((h.grow hTurn).assigns hWires)
  · intro wire coefficient hOpen
    exact hWires.writes wire value (h.opened hTurn hMem hOpen).2.2

/-- The constraint writes the wires that it resolves. -/
private theorem isSome_iff (wire : Nat) :
    ((write.toList ++ progress.writes).lookup wire).isSome ↔
      resolution.resolver[wire]? = some node := by
  constructor
  · intro hWritten
    cases hCase : write with
    | none =>
        rw [hCase] at hWritten
        exact (h.valid.origin wire hWritten).1
    | some written =>
        obtain ⟨opened, writtenValue⟩ := written
        obtain ⟨partialSum, hMem, coefficient, hOpen⟩ :=
          h.opens opened writtenValue hCase
        by_cases hSame : wire = opened
        · subst hSame
          exact (h.opened hTurn hMem hOpen).1
        · rw [hCase] at hWritten
          apply (h.valid.origin wire _).1
          rwa [Option.toList_some, List.singleton_append, List.lookup_cons,
            beq_false_of_ne hSame] at hWritten
  · intro hOwner
    rcases hTurn.written_or_plain h.valid h.ran hOwner
      with hWritten | ⟨term, hTerm, rfl⟩
    · exact (h.grow hTurn).isSome hWritten
    · obtain ⟨partialSum, hMem, ⟨seen, hSeen⟩ | ⟨coefficient, hOpen⟩⟩ :=
        h.covers hTerm
      · rw [hTurn.get_own hOwner] at hSeen
        injection hSeen with hSeen
        exact (h.grow hTurn).isSome (by rw [hSeen]; rfl)
      · rw [(h.opened hTurn hMem hOpen).2.2]
        rfl

/-- An output of a hint is no plain wire, so that the hint's run has written
it. -/
private theorem output_written {number : Nat} {hint : Hint p}
    (hGet : solver.system.hints[number]? = some hint) {wire : Nat}
    (hWire : wire ∈ hint.wires)
    (hOwner : resolution.resolver[wire]? = some node) :
    (progress.writes.lookup wire).isSome := by
  rcases hTurn.written_or_plain h.valid h.ran hOwner
    with hWritten | ⟨term, hTerm, hSame⟩
  · exact hWritten
  · have hProducer := hTurn.wellFormed.hintFor?_eq_some_iff.mpr ⟨hGet, hWire⟩
    rw [← hSame] at hProducer hOwner ⊢
    exact (h.ran term hTerm number hint hProducer hOwner).outputs term.wire
      (hSame ▸ hWire)

/-- The hints that the constraint resolves yield their outputs. -/
private theorem hints {number : Nat} {hint : Hint p}
    (hGet : solver.system.hints[number]? = some hint) {wire : Nat}
    (hWire : wire ∈ hint.wires)
    (hOwner : resolution.resolver[wire]? = some node) {wires : Array (Fp p)}
    (hWires : Assigns wires view.known (write.toList ++ progress.writes)) :
    solver.HintHolds wires hint := by
  have hWritten := h.output_written hTurn hGet hWire hOwner
  exact (h.valid.ran number hint hGet wire hWire hWritten).holds wires
    ((h.grow hTurn).assigns hWires)

/-- No wire is written twice. -/
private theorem nodup_writes :
    ((write.toList ++ progress.writes).map Prod.fst).Nodup := by
  cases hCase : write with
  | none => exact h.valid.nodup_writes
  | some written =>
      obtain ⟨wire, writtenValue⟩ := written
      obtain ⟨partialSum, hMem, coefficient, hOpen⟩ :=
        h.opens wire writtenValue hCase
      obtain ⟨-, hUnwritten, -⟩ := h.opened hTurn hMem hOpen
      have hNew : wire ∉ progress.writes.map Prod.fst := by
        rw [← isSome_lookup_iff, hUnwritten]
        exact Bool.false_ne_true
      exact List.nodup_cons.mpr ⟨hNew, h.valid.nodup_writes⟩

/-- The hints that the constraint resolves have been run, and no others. -/
private theorem mem_hints (number : Nat) :
    number ∈ progress.hints ↔ ∃ hint : Hint p,
    solver.system.hints[number]? = some hint ∧
      resolution.resolver[hint.firstWire]? = some node := by
  rw [h.valid.mem_hints]
  constructor
  · rintro ⟨hint, hGet, hWritten⟩
    exact ⟨hint, hGet, (h.valid.origin _ hWritten).1⟩
  · rintro ⟨hint, hGet, hOwner⟩
    exact ⟨hint, hGet,
      h.output_written hTurn hGet (hTurn.wellFormed.firstWire_mem hGet) hOwner⟩

end Solved

include hTurn

/-- When its hints have been run and its expressions summed, the equation of a
constraint is solved for a value that completes all sums. -/
theorem solved {progress : Progress p} {left right output : PartialSum p}
    {write : Option (Nat × Fp p)} {row : Row p}
    (hHints : c.terms.foldlM (solver.runHintOf view) {} = .ok progress)
    (hLeft : solver.sumKnown view progress node c.left = .ok left)
    (hRight : solver.sumKnown view progress node c.right = .ok right)
    (hOutput : solver.sumKnown view progress node c.output = .ok output)
    (hIsolate : PartialSum.isolate node left right output = .ok (write, row)) :
    ∃ value, Solved solver resolution node c view progress left right output
      value write ∧
      row = ⟨left.total value, right.total value, output.total value⟩ := by
  obtain ⟨hValid, hRan⟩ :=
    hTurn.runHints_sound (fun _ hTerm => hTerm) Progress.Valid.start hHints
  obtain ⟨value, hRow, hCloses, hOpens⟩ := PartialSum.isolate_sound hIsolate
  refine ⟨value, ?_, hRow⟩
  exact
    { valid := hValid
      ran := hRan
      leftSums := sumKnown_sound hLeft
      rightSums := sumKnown_sound hRight
      outputSums := sumKnown_sound hOutput
      closes := hCloses
      opens := hOpens }

/-- A constraint that is run in its turn leaves a sound record. -/
theorem runConstraint_sound {step : Step p}
    (hGet : solver.system.constraints[node]? = some c)
    (h : solver.runConstraint view node = .ok step) :
    step.constraint = node ∧ step.Sound solver resolution view.known c := by
  obtain ⟨hConstraint, progress, left, right, output, write, hWrites, hRun,
    hHints, hLeft, hRight, hOutput, hSolve⟩ := runConstraint_eq_ok hGet h
  obtain ⟨hIsolate, hHolds⟩ := PartialSum.solve_holds hSolve
  obtain ⟨value, hSolved, hRow⟩ :=
    hTurn.solved hHints hLeft hRight hOutput hIsolate
  refine ⟨hConstraint, ?_⟩
  exact
    { writes := by
        rw [hWrites, hConstraint]
        exact hSolved.isSome_iff hTurn
      row := by
        intro wires hWires
        rw [hWrites] at hWires
        rw [hRow]
        exact ⟨hSolved.evaluate hTurn hWires (by simp) (c.mem_terms (by simp))
          hSolved.leftSums, hSolved.evaluate hTurn hWires (by simp)
          (c.mem_terms (by simp)) hSolved.rightSums, hSolved.evaluate hTurn
          hWires (by simp) (c.mem_terms (by simp)) hSolved.outputSums⟩
      holds := hHolds
      hints := by
        intro number hint hHint wire hWire hOwner wires hWires
        rw [hWrites] at hWires
        rw [hConstraint] at hOwner
        exact hSolved.hints hTurn hHint hWire hOwner hWires
      nodup_writes := hWrites ▸ hSolved.nodup_writes hTurn
      nodup_hints := hRun ▸ hSolved.valid.nodup_hints
      mem_hints := by
        rw [hRun, hConstraint]
        exact hSolved.mem_hints hTurn }

end Solver.Turn

end RankOne
