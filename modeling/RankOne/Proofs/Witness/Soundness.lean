import RankOne.Proofs.Witness.Run

/-!
# Soundness of the solver

A solution gives every wire a value. The inputs have the values that were asked
for, the rows hold the values of the constraints' expressions, every constraint
holds and every hint's function yields the values of its outputs: all of it
under the full assignment, although every row was computed when later wires were
still unknown.
-/

namespace RankOne

variable {p : Nat}

/-! ## Counts -/

namespace ValidSystem

/-- When no sum of counts wraps around, the counts add up. -/
structure CountsFit (system : ValidSystem p) : Prop where
  numInputs_eq : system.layout.numInputs =
    system.layout.numPublic.toNat + system.layout.numSecret.toNat
  inputs_le : system.layout.numInputs ≤ system.layout.numWires
  numRows_eq :
    system.numRows = system.constraints.size + system.layout.numPublic.toNat

theorem countsFit_spec {system : ValidSystem p} (h : system.countsFit = true) :
    system.CountsFit := by
  unfold countsFit at h
  simp only [Bool.and_eq_true, decide_eq_true_eq, beq_iff_eq] at h
  obtain ⟨⟨hPublic, hInputs⟩, hRows⟩ := h
  refine ⟨?_, hInputs, hRows.symm⟩
  unfold Layout.numInputs at hPublic ⊢
  rw [UInt64.toNat_add] at hPublic ⊢
  have hPublicBound := system.layout.numPublic.toNat_lt
  have hSecretBound := system.layout.numSecret.toNat_lt
  omega

/-- Public wires are wires. -/
theorem CountsFit.public_le {system : ValidSystem p} (h : system.CountsFit) :
    system.layout.numPublic.toNat ≤ system.layout.numWires := by
  have hInputs := h.numInputs_eq
  have hLe := h.inputs_le
  omega

/-- No sum of counts wraps around when the wires of the two kinds of inputs are
among the wires and the constraints fit into memory. -/
theorem WellFormed.countsFit {system : ValidSystem p} (h : system.WellFormed)
    (hInputs : system.layout.numPublic.toNat + system.layout.numSecret.toNat ≤
      system.layout.numWires)
    (hSize : system.constraints.size < 2 ^ 63) : system.countsFit = true := by
  have hWires := h.wires_bounded
  have hNumInputs : system.layout.numInputs =
      system.layout.numPublic.toNat + system.layout.numSecret.toNat := by
    unfold Layout.numInputs
    rw [UInt64.toNat_add]
    omega
  have hNumRows : system.numRows =
      system.constraints.size + system.layout.numPublic.toNat := by
    unfold numRows
    rw [UInt64.toNat_add]
    show (system.constraints.size % 2 ^ 64 + _) % 2 ^ 64 = _
    omega
  unfold ValidSystem.countsFit
  simp only [Bool.and_eq_true, decide_eq_true_eq, beq_iff_eq]
  refine ⟨⟨by omega, by omega⟩, ?_⟩
  rw [hNumRows]
  rfl

end ValidSystem

/-! ## Rows -/

namespace Solver

private theorem getElem?_setRows_of_absent {rows : Array (Row p)}
    {steps : List (Step p)} {i : Nat}
    (h : ∀ step ∈ steps, step.constraint ≠ i) :
    (steps.foldl (fun rows step =>
      rows.setIfInBounds step.constraint step.row) rows)[i]? =
      rows[i]? := by
  induction steps generalizing rows with
  | nil => rfl
  | cons step rest ih =>
      rw [List.foldl_cons,
        ih fun other hOther => h other (List.mem_cons_of_mem _ hOther),
        Array.getElem?_setIfInBounds_ne (h step List.mem_cons_self)]

private theorem getElem?_setRows {rows : Array (Row p)} {steps : List (Step p)}
    {step : Step p} (hNodup : (steps.map Step.constraint).Nodup)
    (hStep : step ∈ steps) (hBound : step.constraint < rows.size) :
    (steps.foldl (fun rows step => rows.setIfInBounds step.constraint step.row)
      rows)[step.constraint]? = some step.row := by
  induction steps generalizing rows with
  | nil => simp at hStep
  | cons first rest ih =>
      rw [List.map_cons] at hNodup
      obtain ⟨hFirst, hRest⟩ := List.nodup_cons.mp hNodup
      rw [List.foldl_cons]
      rcases List.mem_cons.mp hStep with rfl | hStep
      · rw [getElem?_setRows_of_absent,
          Array.getElem?_setIfInBounds_self_of_lt hBound]
        intro other hOther hSame
        exact hFirst (hSame ▸ List.mem_map_of_mem hOther)
      · exact ih hRest hStep (by rwa [Array.size_setIfInBounds])

/-- Every wire that is no input is resolved by some constraint, since it occurs
in one. -/
theorem exists_resolver {solver : Solver p} {resolution : Resolution}
    (hPlan : solver.system.Planned resolution) (hFit : solver.system.CountsFit)
    {wire : Nat} (hLow : solver.system.layout.numInputs ≤ wire)
    (hHigh : wire < solver.system.layout.numWires) :
    ∃ owner, resolution.resolver[wire]? = some owner := by
  have hOne := hPlan.wellFormed.public_pos
  have hNumInputs := hFit.numInputs_eq
  obtain ⟨node, c, hConstraint, term, hTerm, hWire⟩ :=
    hPlan.wellFormed.mentioned wire (by omega) hHigh
  rw [← hWire] at hLow ⊢
  exact hPlan.resolved.exists_owner hConstraint hTerm hLow

theorem checkInputs_eq_ok {solver : Solver p}
    {publicInputs secretInputs : List (Fp p)}
    (h : solver.checkInputs publicInputs secretInputs = .ok ()) :
    publicInputs.length = solver.system.layout.numPublic.toNat - 1 ∧
      secretInputs.length = solver.system.layout.numSecret.toNat := by
  unfold checkInputs at h
  dsimp only at h
  split at h
  · cases h
  next hPublic =>
  split at h
  · cases h
  next hSecret =>
  exact ⟨not_not.mp hPublic, not_not.mp hSecret⟩

theorem checkInputs_eq_error {solver : Solver p}
    {publicInputs secretInputs : List (Fp p)} {e : SolveError}
    (h : solver.checkInputs publicInputs secretInputs = .error e) :
    ∃ kind expected actual, e = .inputCountMismatch kind expected actual := by
  unfold checkInputs at h
  dsimp only at h
  split at h
  · injection h with h
    exact ⟨_, _, _, h.symm⟩
  · split at h
    · injection h with h
      exact ⟨_, _, _, h.symm⟩
    · cases h

/-- One and the inputs are as many values as there are input wires. -/
theorem length_inputs [Modulus p] {solver : Solver p} {resolution : Resolution}
    {publicInputs secretInputs : List (Fp p)}
    (hPlan : solver.system.Planned resolution) (hFit : solver.system.CountsFit)
    (h : solver.checkInputs publicInputs secretInputs = .ok ()) :
    (1 :: (publicInputs ++ secretInputs)).length =
      solver.system.layout.numInputs := by
  obtain ⟨hPublic, hSecret⟩ := checkInputs_eq_ok h
  have hOne := hPlan.wellFormed.public_pos
  rw [List.length_cons, List.length_append, hFit.numInputs_eq]
  omega

theorem complete_eq_ok {wire : Nat} {values : List (Option (Fp p))}
    {witness : List (Fp p)} (h : complete wire values = .ok witness) :
    values = witness.map some := by
  induction values generalizing wire witness with
  | nil =>
      injection h with h
      rw [← h]
      rfl
  | cons value rest ih =>
      cases value with
      | none => cases h
      | some value =>
          unfold complete at h
          split at h
          · next later hLater =>
              injection h with h
              rw [← h, ih hLater]
              rfl
          · cases h

/-- In a completed witness known wires have their values. -/
private theorem getElem?_of_complete {known : Array (Option (Fp p))}
    {start wire : Nat} {witness : List (Fp p)} {value : Fp p}
    (h : complete start known.toList = .ok witness)
    (hKnown : known[wire]? = some (some value)) :
    witness[wire]? = some value := by
  rw [← Array.getElem?_toList, complete_eq_ok h, List.getElem?_map,
    Option.map_eq_some_iff] at hKnown
  obtain ⟨value', hGet, hSame⟩ := hKnown
  injection hSame with hSame
  exact hSame ▸ hGet

variable [Modulus p]

private theorem length_rowsOf (count : Nat) (steps : List (Step p)) :
    (rowsOf count steps).length = count := by
  have hSize : ∀ rows : Array (Row p),
      (steps.foldl (fun rows step =>
        rows.setIfInBounds step.constraint step.row) rows).size =
        rows.size := by
    induction steps with
    | nil => exact fun _ => rfl
    | cons step rest ih =>
        intro rows
        rw [List.foldl_cons, ih, Array.size_setIfInBounds]
  unfold rowsOf
  rw [Array.length_toList, hSize, Array.size_replicate]

/-- The row of a constraint is the one that its record reports. -/
private theorem getElem?_rowsOf {count : Nat} {steps : List (Step p)}
    {step : Step p} (hNodup : (steps.map Step.constraint).Nodup)
    (hStep : step ∈ steps) (hBound : step.constraint < count) :
    (rowsOf count steps)[step.constraint]? = some step.row := by
  unfold rowsOf
  rw [Array.getElem?_toList]
  exact getElem?_setRows hNodup hStep (by rwa [Array.size_replicate])

section Columns

variable {count : Nat} {steps : List (Step p)} (f : Row p → Fp p)
  (later : List (Fp p))

private theorem length_column :
    ((rowsOf count steps).map f ++ later).length = count + later.length := by
  rw [List.length_append, List.length_map, length_rowsOf]

/-- In a column of a solution the rows of the constraints come first. -/
private theorem getElem?_column_constraint {step : Step p}
    (hNodup : (steps.map Step.constraint).Nodup) (hStep : step ∈ steps)
    (hBound : step.constraint < count) :
    ((rowsOf count steps).map f ++ later)[step.constraint]? =
      some (f step.row) := by
  rw [List.getElem?_append_left, List.getElem?_map,
    getElem?_rowsOf hNodup hStep hBound]
  · rfl
  · rw [List.length_map, length_rowsOf]
    exact hBound

/-- The rows of the public wires come after them. -/
private theorem getElem?_column_public (wire : Nat) :
    ((rowsOf count steps).map f ++ later)[count + wire]? = later[wire]? := by
  rw [List.getElem?_append_right, List.length_map, length_rowsOf,
    Nat.add_sub_cancel_left]
  rw [List.length_map, length_rowsOf]
  omega

end Columns

end Solver

/-! ## Finished runs -/

variable [Modulus p]

/-- What a run on given inputs has come to when every wire has a value. -/
structure Solver.Finished (solver : Solver p)
    (publicInputs secretInputs witness : List (Fp p)) (steps : List (Step p)) :
    Prop where
  counts : solver.system.CountsFit
  length_public : publicInputs.length + 1 = solver.system.layout.numPublic.toNat
  length_secret : secretInputs.length = solver.system.layout.numSecret.toNat
  length_witness : witness.length = solver.system.layout.numWires
  inputs : witness.take solver.system.layout.numInputs =
    1 :: (publicInputs ++ secretInputs)
  perm :
    (steps.map Step.constraint).Perm (List.range solver.system.constraints.size)
  rows : ∀ step ∈ steps, ∃ c,
    solver.system.constraints[step.constraint]? = some c ∧
    solver.system.evaluate witness.toArray c.left = .ok step.row.left ∧
    solver.system.evaluate witness.toArray c.right = .ok step.row.right ∧
    solver.system.evaluate witness.toArray c.output = .ok step.row.output ∧
    step.row.left * step.row.right = step.row.output
  hints : ∀ (number : Nat) (hint : Hint p),
    solver.system.hints[number]? = some hint →
    solver.HintHolds witness.toArray hint

namespace Solver

variable {solver : Solver p} {publicInputs secretInputs : List (Fp p)}

/-- Before the first level the inputs are known. -/
theorem initialValues_knows (resolver : Std.TreeMap Nat Nat)
    (hInputs : solver.system.layout.numInputs ≤ solver.system.layout.numWires)
    (hLength : (1 :: (publicInputs ++ secretInputs)).length =
      solver.system.layout.numInputs) :
    Knows solver.system.toValidSystem resolver []
        (solver.initialValues publicInputs secretInputs) ∧
      ∀ wire < solver.system.layout.numInputs,
        (solver.initialValues publicInputs secretInputs)[wire]? =
          (1 :: (publicInputs ++ secretInputs))[wire]?.map some := by
  have hGet : ∀ wire : Nat,
      (solver.initialValues publicInputs secretInputs)[wire]? =
      if wire < solver.system.layout.numInputs then
        (1 :: (publicInputs ++ secretInputs))[wire]?.map some
      else if wire < solver.system.layout.numWires then some none
        else none := by
    intro wire
    unfold initialValues
    dsimp only
    rw [List.getElem?_toArray, List.getElem?_append, List.length_map, hLength]
    by_cases hInput : wire < solver.system.layout.numInputs
    · rw [if_pos hInput, if_pos hInput, List.getElem?_map]
    · rw [if_neg hInput, if_neg hInput, List.getElem?_replicate]
      by_cases hWire : wire < solver.system.layout.numWires
      · rw [if_pos hWire, if_pos (by omega)]
      · rw [if_neg hWire, if_neg (by omega)]
  refine ⟨⟨?_, ?_⟩, ?_⟩
  · unfold initialValues
    rw [List.size_toArray, List.length_append, List.length_map,
      List.length_replicate, hLength]
    omega
  · intro wire hWire
    rw [hGet wire]
    by_cases hInput : wire < solver.system.layout.numInputs
    · rw [if_pos hInput, List.getElem?_eq_getElem (hLength.symm ▸ hInput)]
      exact ⟨fun _ => Or.inl hInput, fun _ => ⟨_, rfl⟩⟩
    · rw [if_neg hInput, if_pos hWire]
      constructor
      · rintro ⟨value, hValue⟩
        cases hValue
      · rintro (hLess | ⟨node, hNode, -⟩)
        · exact absurd hLess hInput
        · simp at hNode
  · intro wire hInput
    rw [hGet wire, if_pos hInput]

/-- A run on inputs of the right numbers starts knowing them and nothing
else. -/
theorem knows_initialValues {resolution : Resolution}
    (hPlan : solver.system.Planned resolution) (hFit : solver.system.CountsFit)
    (hInputs : solver.checkInputs publicInputs secretInputs = .ok ()) :
    Knows solver.system.toValidSystem resolution.resolver []
      (solver.initialValues publicInputs secretInputs) :=
  (initialValues_knows resolution.resolver hFit.inputs_le
    (length_inputs hPlan hFit hInputs)).1

/-- The inputs stay what they were when the run began. -/
private theorem take_numInputs_of_complete {known : Array (Option (Fp p))}
    {witness : List (Fp p)}
    (hLength : (1 :: (publicInputs ++ secretInputs)).length =
      solver.system.layout.numInputs)
    (hInitial : ∀ wire < solver.system.layout.numInputs,
      (solver.initialValues publicInputs secretInputs)[wire]? =
      (1 :: (publicInputs ++ secretInputs))[wire]?.map some)
    (hGrow : KnownGrow (solver.initialValues publicInputs secretInputs) known)
    (hComplete : complete 0 known.toList = .ok witness) :
    witness.take solver.system.layout.numInputs =
      1 :: (publicInputs ++ secretInputs) := by
  apply List.ext_getElem?
  intro wire
  rw [List.getElem?_take]
  split
  · next hInput =>
      have hBound := hLength.symm ▸ hInput
      rw [List.getElem?_eq_getElem hBound]
      apply getElem?_of_complete hComplete
      apply hGrow
      rw [hInitial wire hInput, List.getElem?_eq_getElem hBound]
      rfl
  · next hOutside =>
      rw [List.getElem?_eq_none]
      omega

/-- A run with a solution was given inputs of the right numbers, no sum of
counts wraps around, no constraint failed, and in the end every wire was
known. -/
theorem solve_eq_ok {solution : Solution p}
    (h : solver.solve publicInputs secretInputs = .ok solution) :
    solver.checkInputs publicInputs secretInputs = .ok () ∧
      solver.system.countsFit = true ∧
      (solver.trace publicInputs secretInputs).failure = none ∧
      complete 0 (solver.trace publicInputs secretInputs).known.toList =
        .ok solution.witness ∧
      solution = solver.solutionOf solution.witness
        (solver.trace publicInputs secretInputs).steps := by
  unfold solve at h
  simp only [bind_eq_ok, Outcome.ofExcept_eq_ok] at h
  obtain ⟨⟨⟩, hLengths, h⟩ := h
  split at h
  · exact absurd h Outcome.abandon_ne_ok
  next hCounts =>
  split at h
  · cases h
  next hFailure =>
  simp only [bind_eq_ok, Outcome.ofExcept_eq_ok, pure_eq_ok] at h
  obtain ⟨witness, hComplete, rfl⟩ := h
  exact ⟨hLengths, by simpa using hCounts, hFailure, hComplete, rfl⟩

/-- On the way to a solution every constraint has been run in its turn, and the
witness gives the wires that were known then and those that it wrote their
values. -/
theorem solve_taken {resolution : Resolution}
    (hPlan : solver.system.Planned resolution) {solution : Solution p}
    (h : solver.solve publicInputs secretInputs = .ok solution) :
    ((solver.trace publicInputs secretInputs).steps.map Step.constraint).Perm
        (List.range solver.system.constraints.size) ∧
      ∀ step ∈ (solver.trace publicInputs secretInputs).steps, ∃ c known,
        step.Taken solver resolution known c ∧
          Assigns solution.witness.toArray known step.writes := by
  obtain ⟨hLengths, hCounts, hFailure, hComplete, -⟩ := solve_eq_ok h
  have hFit := ValidSystem.countsFit_spec hCounts
  have hKnows := knows_initialValues hPlan hFit hLengths
  obtain ⟨hConstraints, -, -, hSteps⟩ := runLevels_sound hPlan hFit.inputs_le
    [] List.prefix_rfl hKnows hFailure
  constructor
  · rw [← hPlan.resolved.length_costs]
    exact hConstraints ▸ hPlan.ordered.perm
  · intro step hStep
    obtain ⟨⟨c, known, hTaken, hGrow⟩, hWrites⟩ := hSteps step hStep
    refine ⟨c, known, hTaken, ?_⟩
    exact
      { known := by
          intro wire value hKnown
          rw [List.getElem?_toArray]
          exact getElem?_of_complete hComplete (hGrow wire value hKnown)
        writes := by
          intro wire value hWritten
          rw [List.getElem?_toArray]
          exact getElem?_of_complete hComplete (hWrites wire value hWritten) }

/-- A run that ends with a solution is finished, and the solution is made of its
witness and its records. -/
theorem solve_finished {resolution : Resolution}
    (hPlan : solver.system.Planned resolution) {solution : Solution p}
    (h : solver.solve publicInputs secretInputs = .ok solution) :
    ∃ steps, solution = solver.solutionOf solution.witness steps ∧
      solver.Finished publicInputs secretInputs solution.witness steps := by
  obtain ⟨hLengths, hCounts, hFailure, hComplete, hSolution⟩ := solve_eq_ok h
  obtain ⟨hPerm, hSteps⟩ := solve_taken hPlan h
  have hFit := ValidSystem.countsFit_spec hCounts
  obtain ⟨hPublic, hSecret⟩ := checkInputs_eq_ok hLengths
  have hOne := hPlan.wellFormed.public_pos
  have hLength := length_inputs hPlan hFit hLengths
  obtain ⟨hKnows, hInitial⟩ :=
    initialValues_knows resolution.resolver hFit.inputs_le hLength
  obtain ⟨-, hEnd, hGrow, -⟩ := runLevels_sound hPlan hFit.inputs_le
    [] List.prefix_rfl hKnows hFailure
  refine ⟨(solver.trace publicInputs secretInputs).steps, hSolution, ?_⟩
  exact
    { counts := hFit
      length_public := by omega
      length_secret := hSecret
      length_witness := by
        rw [← hEnd.size]
        show _ = (solver.trace publicInputs secretInputs).known.size
        rw [← Array.length_toList, complete_eq_ok hComplete, List.length_map]
      inputs := take_numInputs_of_complete hLength hInitial hGrow hComplete
      perm := hPerm
      rows := by
        intro step hStep
        obtain ⟨c, known, hTaken, hAssigns⟩ := hSteps step hStep
        obtain ⟨hLeft, hRight, hOutput⟩ := hTaken.sound.row _ hAssigns
        exact ⟨c, hTaken.1, hLeft, hRight, hOutput, hTaken.sound.holds⟩
      hints := by
        intro number hint hGet
        have hFirst := hPlan.wellFormed.firstWire_mem hGet
        obtain ⟨hLow, hHigh⟩ :=
          hPlan.wellFormed.outputs_internal number hint hGet
            hint.firstWire hFirst
        obtain ⟨owner, hOwner⟩ := exists_resolver hPlan hFit hLow hHigh
        have hMem : owner ∈
            (solver.trace publicInputs secretInputs).steps.map
              Step.constraint := by
          rw [hPerm.mem_iff, List.mem_range]
          exact (hPlan.resolved.bounded _ owner hOwner).1
        obtain ⟨step, hStep, rfl⟩ := List.mem_map.mp hMem
        obtain ⟨c, known, hTaken, hAssigns⟩ := hSteps step hStep
        exact hTaken.sound.hints number hint hGet hint.firstWire hFirst hOwner
          _ hAssigns }

end Solver

/-! ## Solutions -/

/-- What a solution guarantees. -/
structure Solution.Sound (solver : Solver p)
    (publicInputs secretInputs : List (Fp p)) (solution : Solution p) :
    Prop where
  length_witness : solution.witness.length = solver.system.layout.numWires
  one : solution.witness[0]? = some 1
  publicInputs :
    solution.publicInputs solver.system.layout.numPublic.toNat = publicInputs
  secretInputs :
    (solution.witness.drop solver.system.layout.numPublic.toNat).take
      solver.system.layout.numSecret.toNat = secretInputs
  constraints : ∀ (number : Nat) (c : Constraint),
    solver.system.constraints[number]? = some c → ∃ left right output,
      solution.a[number]? = some left ∧ solution.b[number]? = some right ∧
      solution.c[number]? = some output ∧
      solver.system.evaluate solution.witness.toArray c.left = .ok left ∧
      solver.system.evaluate solution.witness.toArray c.right = .ok right ∧
      solver.system.evaluate solution.witness.toArray c.output = .ok output ∧
      left * right = output
  publicRows : ∀ wire < solver.system.layout.numPublic.toNat, ∃ value,
    solution.witness[wire]? = some value ∧
      solution.a[solver.system.numConstraints + wire]? = some value ∧
      solution.b[solver.system.numConstraints + wire]? = some 0 ∧
      solution.c[solver.system.numConstraints + wire]? = some 0
  length_a : solution.a.length = solver.system.numRows
  length_b : solution.b.length = solver.system.numRows
  length_c : solution.c.length = solver.system.numRows
  hints : ∀ (number : Nat) (hint : Hint p),
    solver.system.hints[number]? = some hint →
    solver.HintHolds solution.witness.toArray hint

namespace Solver.Finished

variable {solver : Solver p} {publicInputs secretInputs witness : List (Fp p)}
  {steps : List (Step p)}
  (h : solver.Finished publicInputs secretInputs witness steps)
include h

private theorem numPublic_le :
    solver.system.layout.numPublic.toNat ≤ witness.length := by
  have hInputs := h.counts.numInputs_eq
  have hInputsLe := h.counts.inputs_le
  have hWitness := h.length_witness
  omega

private theorem take_inputs {n : Nat}
    (hn : n ≤ solver.system.layout.numInputs) :
    witness.take n = (1 :: (publicInputs ++ secretInputs)).take n := by
  rw [← h.inputs, List.take_take, Nat.min_eq_left hn]

theorem constraints {number : Nat} {c : Constraint}
    (hGet : solver.system.constraints[number]? = some c) : ∃ left right output,
      (solver.solutionOf witness steps).a[number]? = some left ∧
      (solver.solutionOf witness steps).b[number]? = some right ∧
      (solver.solutionOf witness steps).c[number]? = some output ∧
      solver.system.evaluate witness.toArray c.left = .ok left ∧
      solver.system.evaluate witness.toArray c.right = .ok right ∧
      solver.system.evaluate witness.toArray c.output = .ok output ∧
      left * right = output := by
  have hNumber := (Array.getElem?_eq_some_iff.mp hGet).1
  have hNodup := h.perm.symm.nodup List.nodup_range
  have hMem : number ∈ steps.map Step.constraint := by
    rw [h.perm.mem_iff, List.mem_range]
    exact hNumber
  obtain ⟨step, hStep, rfl⟩ := List.mem_map.mp hMem
  obtain ⟨c', hGet', hLeft, hRight, hOutput, hHolds⟩ := h.rows step hStep
  rw [hGet] at hGet'
  injection hGet' with hSame
  subst hSame
  exact ⟨_, _, _, getElem?_column_constraint Row.left _ hNodup hStep hNumber,
    getElem?_column_constraint Row.right _ hNodup hStep hNumber,
    getElem?_column_constraint Row.output _ hNodup hStep hNumber, hLeft, hRight,
      hOutput, hHolds⟩

private theorem publicRows {wire : Nat}
    (hWire : wire < solver.system.layout.numPublic.toNat) :
    ∃ value, witness[wire]? = some value ∧
      (solver.solutionOf witness
        steps).a[solver.system.numConstraints + wire]? = some value ∧
      (solver.solutionOf witness
        steps).b[solver.system.numConstraints + wire]? = some 0 ∧
      (solver.solutionOf witness
        steps).c[solver.system.numConstraints + wire]? = some 0 := by
  have hPlace : wire < witness.length := Nat.lt_of_lt_of_le hWire h.numPublic_le
  have hValue : (witness.take solver.system.layout.numPublic.toNat)[wire]? =
      some witness[wire] := by
    rw [List.getElem?_take_of_lt hWire]
    exact List.getElem?_eq_getElem hPlace
  have hZero : ((witness.take solver.system.layout.numPublic.toNat).map
      fun _ => (0 : Fp p))[wire]? = some 0 := by
    rw [List.getElem?_map, hValue]
    rfl
  exact ⟨witness[wire], List.getElem?_eq_getElem hPlace,
    (getElem?_column_public Row.left _ wire).trans hValue,
    (getElem?_column_public Row.right _ wire).trans hZero,
    (getElem?_column_public Row.output _ wire).trans hZero⟩

/-- The solution made of a finished run is sound. -/
theorem sound :
    (solver.solutionOf witness steps).Sound solver publicInputs
      secretInputs := by
  have hPublic := h.length_public
  have hInputs := h.counts.numInputs_eq
  have hValues : (witness.take solver.system.layout.numPublic.toNat).length =
      solver.system.layout.numPublic.toNat := by
    rw [List.length_take]
    exact Nat.min_eq_left h.numPublic_le
  have hZeros : ((witness.take solver.system.layout.numPublic.toNat).map
      fun _ => (0 : Fp p)).length = solver.system.layout.numPublic.toNat := by
    rw [List.length_map, hValues]
  exact
    { length_witness := h.length_witness
      one := by
        show witness[0]? = some 1
        have hFirst : 0 < solver.system.layout.numInputs := by omega
        rw [← List.getElem?_take_of_lt hFirst, h.inputs]
        rfl
      publicInputs := by
        show (witness.take _).drop 1 = publicInputs
        rw [h.take_inputs (by omega), ← hPublic, List.take_succ_cons,
          List.drop_one, List.tail_cons, List.take_left]
      secretInputs := by
        show (witness.drop _).take _ = secretInputs
        rw [List.take_drop, ← hInputs, h.inputs, ← hPublic, List.drop_succ_cons,
          List.drop_left]
      constraints := fun number c hGet => h.constraints hGet
      publicRows := fun wire hWire => h.publicRows hWire
      length_a := by
        rw [h.counts.numRows_eq, ← hValues]
        exact length_column Row.left _
      length_b := by
        rw [h.counts.numRows_eq, ← hZeros]
        exact length_column Row.right _
      length_c := by
        rw [h.counts.numRows_eq, ← hZeros]
        exact length_column Row.output _
      hints := h.hints }

end Solver.Finished

namespace Solver

/-- A solution with which a planned run ends is sound. -/
theorem solution_sound {solver : Solver p} {resolution : Resolution}
    (hPlan : solver.system.Planned resolution)
    {publicInputs secretInputs : List (Fp p)} {solution : Solution p}
    (hSolve : solver.solve publicInputs secretInputs = .ok solution) :
    solution.Sound solver publicInputs secretInputs := by
  obtain ⟨steps, hSolution, hFinished⟩ := solve_finished hPlan hSolve
  rw [hSolution]
  exact hFinished.sound

/-- Whatever the settings, the inputs and the functions of the custom hints are,
a solution of a compiled system is sound. -/
theorem solve_sound {settings : SchedulerSettings} {flat : FlatSystem p}
    {solver : Solver p} {publicInputs secretInputs : List (Fp p)}
    {solution : Solution p}
    (hCompile : CompiledSystem.compile settings flat = .ok solver.system)
    (hSolve : solver.solve publicInputs secretInputs = .ok solution) :
    solution.Sound solver publicInputs secretInputs := by
  obtain ⟨resolution, hPlan⟩ := CompiledSystem.compile_planned hCompile
  obtain ⟨steps, hSolution, hFinished⟩ := solve_finished hPlan hSolve
  rw [hSolution]
  exact hFinished.sound

end Solver

instance prime_seventeen : Fact (Nat.Prime 17) := ⟨by norm_num⟩

/-- A system for a public square `y` of a secret `x`, modulo 17. Its wires are
one, `y`, `x`, and the internal `z`, `v`, `w` and `b`; two hints set `w` to one
for a zero `x`, and `b` to the lowest bit of `w`. The constraints are
`x · x = z`, `(v + v) · 1 = z`, `b · 1 = w`, `x · w = 0` and `z · 1 = y`. -/
def squareSystem : FlatSystem 17 where
  layout := ⟨2, 1, 4⟩
  constraints := #[
    ⟨[⟨0, 2⟩], [⟨0, 2⟩], [⟨0, 3⟩]⟩,
    ⟨[⟨0, 4⟩, ⟨0, 4⟩], [⟨0, 0⟩], [⟨0, 3⟩]⟩,
    ⟨[⟨0, 6⟩], [⟨0, 0⟩], [⟨0, 5⟩]⟩,
    ⟨[⟨0, 2⟩], [⟨0, 5⟩], []⟩,
    ⟨[⟨0, 3⟩], [⟨0, 0⟩], [⟨0, 1⟩]⟩]
  coefficients := #[1]
  hints := #[
    ⟨.isZero, [.expression [⟨0, 2⟩]], [5]⟩,
    ⟨.ithBit, [.expression [⟨0, 5⟩], .constant 0], [6]⟩]

/-- The square of five is solved, and its solution is sound. -/
theorem solve_sound_square : ∃ (solver : Solver 17) (solution : Solution 17),
    CompiledSystem.compile {} squareSystem = .ok solver.system ∧
      solver.solve [Fp.ofNat 17 8] [Fp.ofNat 17 5] = .ok solution ∧
      solution.witness.map Fp.val = [1, 8, 5, 8, 4, 0, 0] ∧
      solution.Sound solver [Fp.ofNat 17 8] [Fp.ofNat 17 5] := by
  have hRun :
      ((CompiledSystem.compile {} squareSystem).toOption.any fun system =>
        ((Solver.ofSystem system).solve [Fp.ofNat 17 8]
          [Fp.ofNat 17 5]).toOption.any fun solution =>
          decide (solution.witness.map Fp.val = [1, 8, 5, 8, 4, 0, 0])) =
            true := by
    decide +kernel
  simp only [Option.any_eq_true, toOption_eq_some, decide_eq_true_eq] at hRun
  obtain ⟨system, hCompile, solution, hSolve, hWitness⟩ := hRun
  exact ⟨Solver.ofSystem system, solution, hCompile, hSolve, hWitness,
    Solver.solve_sound hCompile hSolve⟩

end RankOne
