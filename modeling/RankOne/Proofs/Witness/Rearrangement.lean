import RankOne.Proofs.Schedule.Rearrangement
import RankOne.Proofs.Witness.Starvation
import RankOne.Proofs.Witness.Uniqueness

/-!
# Solving a rearranged system

Neither the assignments that satisfy a system nor the obstacles to solving its
constraints depend on the order of terms and factors. A run finds an admissible
assignment when there is no obstacle, so a system and its rearranged form are
solved for the same inputs, by the same witness, and their rows differ by the
factors that have changed places.

What the order does decide is whether a system compiles whose hint reads a wire
of its own constraint. Such a system is never solved, and the resolution pass
turns it down when it comes to the hint before the wire.
-/

namespace RankOne

variable {p : Nat}

/-! ## Obstacles -/

/-- A sum does not depend on the order of its terms. -/
private theorem CompiledSystem.evaluate_perm [Modulus p]
    {system : CompiledSystem p} {wires : Array (Fp p)}
    {terms terms' : Expression} (h : terms'.Perm terms) :
    system.evaluate wires terms' = system.evaluate wires terms := by
  induction h with
  | nil => rfl
  | cons term _ ih =>
      unfold evaluate
      rw [ih]
  | swap first second rest =>
      simp only [evaluate]
      cases system.coefficients[first.slot.toNat]? <;>
        cases wires[first.wire]? <;>
        cases system.coefficients[second.slot.toNat]? <;>
          cases wires[second.wire]? <;>
        cases system.evaluate wires rest <;> simp [add_left_comm]
  | trans _ _ ih ih' => exact ih.trans ih'

/-- Factors that change places take their values with them. -/
private theorem CompiledSystem.evaluate_rearranged [Modulus p]
    {system : CompiledSystem p} {wires : Array (Fp p)} {swapped : Bool}
    {c c' : Constraint} (h : Constraint.Rearranges swapped c c')
    {left right output : Fp p} (hLeft : system.evaluate wires c.left = .ok left)
    (hRight : system.evaluate wires c.right = .ok right)
    (hOutput : system.evaluate wires c.output = .ok output) :
    system.evaluate wires c'.left = .ok (if swapped then right else left) ∧
      system.evaluate wires c'.right = .ok (if swapped then left else right) ∧
      system.evaluate wires c'.output = .ok output := by
  obtain ⟨hLeftPerm, hRightPerm, hOutputPerm⟩ := h
  rw [evaluate_perm hLeftPerm, evaluate_perm hRightPerm,
    evaluate_perm hOutputPerm]
  cases swapped with
  | false => exact ⟨hLeft, hRight, hOutput⟩
  | true => exact ⟨hRight, hLeft, hOutput⟩

namespace ValidSystem

variable {system : ValidSystem p} {cs : Array Constraint}
  {resolver resolver' : Std.TreeMap Nat Nat}
  (hSame : ∀ wire : Nat, resolver[wire]? = resolver'[wire]?) {node : Nat}
  {terms terms' : Expression} (hPerm : terms'.Perm terms)
include hSame

private theorem solvesFor_rearranged {wire : Nat} :
    ({ system with constraints := cs } :
      ValidSystem p).SolvesFor resolver' node wire ↔
      system.SolvesFor resolver node wire := by
  unfold SolvesFor
  rw [hSame]
  rfl

private theorem starves_rearranged {wire : Nat} :
    ({ system with constraints := cs } :
      ValidSystem p).Starves resolver' node wire ↔
      system.Starves resolver node wire := by
  unfold Starves
  rw [solvesFor_rearranged hSame]
  simp only [hSame]

include hPerm

private theorem opens_rearranged :
    ({ system with constraints := cs } :
      ValidSystem p).Opens resolver' node terms' ↔
      system.Opens resolver node terms := by
  unfold Opens
  simp only [solvesFor_rearranged hSame, hPerm.mem_iff]

private theorem opensTwice_rearranged :
    ({ system with constraints := cs } :
      ValidSystem p).OpensTwice resolver' node terms' ↔
      system.OpensTwice resolver node terms := by
  unfold OpensTwice
  simp only [solvesFor_rearranged hSame, hPerm.mem_iff]

private theorem openCoefficient_rearranged [Modulus p] :
    ({ system with constraints := cs } :
      ValidSystem p).openCoefficient resolver' node terms' =
      system.openCoefficient resolver node terms := by
  unfold openCoefficient
  simp only [solvesFor_rearranged hSame]
  exact (hPerm.map _).sum_eq

omit hPerm

private theorem crowded_rearranged {swapped : Bool} {c c' : Constraint}
    (hRearranged : Constraint.Rearranges swapped c c') :
    ({ system with constraints := cs } :
      ValidSystem p).Crowded resolver' node c' ↔
      system.Crowded resolver node c := by
  obtain ⟨hLeft, hRight, hOutput⟩ := hRearranged
  unfold Crowded
  simp only [List.mem_cons, List.not_mem_nil, or_false, exists_eq_or_imp,
    exists_eq_left]
  rw [opensTwice_rearranged hSame hLeft, opensTwice_rearranged hSame hRight,
    opensTwice_rearranged hSame hOutput, opens_rearranged hSame hLeft,
    opens_rearranged hSame hRight, opens_rearranged hSame hOutput]
  cases swapped with
  | false => rfl
  | true =>
      simp only [if_true]
      tauto

end ValidSystem

/-! ## The same solver for other constraints -/

/-- The solver of the system with other constraints. -/
def Solver.withConstraints (solver : Solver p) (constraints : Array Constraint)
    (digest : Digest) : Solver p :=
  { solver with system := { solver.system with constraints, digest } }

variable [Modulus p] {solver : Solver p} {cs : Array Constraint}
  {digest : Digest}

namespace Solver

omit [Modulus p] in
private theorem toValidSystem_withConstraints :
    (solver.withConstraints cs digest).system.toValidSystem =
      { solver.system.toValidSystem with constraints := cs } := rfl

private theorem evaluate_withConstraints {wires : Array (Fp p)}
    {terms : Expression} :
    (solver.withConstraints cs digest).system.evaluate wires terms =
      solver.system.evaluate wires terms := by
  induction terms with
  | nil => rfl
  | cons term rest ih =>
      unfold CompiledSystem.evaluate
      rw [ih]
      rfl

private theorem hintHolds_withConstraints {wires : Array (Fp p)}
    {hint : Hint p} :
    (solver.withConstraints cs digest).HintHolds wires hint ↔
      solver.HintHolds wires hint := by
  have hInput : (solver.withConstraints cs digest).system.evaluateInput wires =
      solver.system.evaluateInput wires := by
    funext input
    cases input with
    | constant value => rfl
    | expression terms => exact evaluate_withConstraints
  unfold HintHolds
  rw [hInput]
  rfl

variable {swapped : Nat → Bool}
  (hRearranges : Rearranges swapped solver.system.constraints cs)
include hRearranges

/-- An assignment that satisfies a system satisfies the rearranged system. -/
theorem Satisfies.rearranged {wires : Array (Fp p)}
    (h : solver.Satisfies wires) :
    (solver.withConstraints cs digest).Satisfies wires where
  constraints := by
    intro number c' hGet'
    obtain ⟨c, hGet, hRearranged⟩ := hRearranges.exists_original hGet'
    obtain ⟨left, right, output, hLeft, hRight, hOutput, hHolds⟩ :=
      h.constraints number c hGet
    obtain ⟨hLeft', hRight', hOutput'⟩ :=
      CompiledSystem.evaluate_rearranged hRearranged hLeft hRight hOutput
    simp only [evaluate_withConstraints]
    refine ⟨_, _, output, hLeft', hRight', hOutput', ?_⟩
    split
    · rw [mul_comm, hHolds]
    · exact hHolds
  hints := fun number hint hGet =>
    hintHolds_withConstraints.mpr (h.hints number hint hGet)

/-- What is admissible for a system is admissible for the rearranged system. -/
theorem Admissible.rearranged {publicInputs secretInputs witness : List (Fp p)}
    (h : solver.Admissible publicInputs secretInputs witness) :
    (solver.withConstraints cs digest).Admissible publicInputs
      secretInputs witness :=
  { Satisfies.rearranged hRearranges h.toSatisfies with
    length_witness := h.length_witness
    length_public := h.length_public
    length_secret := h.length_secret
    one := h.one
    publicInputs := h.publicInputs
    secretInputs := h.secretInputs }

omit [Modulus p] in
private theorem numRows_rearranged :
    (solver.withConstraints cs digest).system.numRows =
      solver.system.numRows := by
  show (cs.size.toUInt64 + _).toNat = _
  rw [hRearranges.size]
  rfl

omit [Modulus p] in
private theorem countsFit_rearranged :
    (solver.withConstraints cs digest).system.countsFit =
      solver.system.countsFit := by
  unfold ValidSystem.countsFit
  rw [numRows_rearranged hRearranges]
  show (_ && cs.size + _ == _) = _
  rw [hRearranges.size]
  rfl

end Solver

section Obstacles

variable {resolver resolver' : Std.TreeMap Nat Nat}
  (hSame : ∀ wire : Nat, resolver[wire]? = resolver'[wire]?) {node : Nat}
  {swapped : Bool} {c c' : Constraint}
  (hRearranged : Constraint.Rearranges swapped c c')
include hSame hRearranged

private theorem CompiledSystem.degenerate_rearranged {wires : Array (Fp p)} :
    (solver.withConstraints cs digest).system.Degenerate resolver'
      node wires c' ↔
      solver.system.Degenerate resolver node wires c := by
  obtain ⟨hLeft, hRight, hOutput⟩ := hRearranged
  unfold Degenerate
  rw [Solver.toValidSystem_withConstraints]
  simp only [Solver.evaluate_withConstraints, evaluate_perm hLeft,
    evaluate_perm hRight]
  rw [ValidSystem.opens_rearranged hSame hLeft,
    ValidSystem.opens_rearranged hSame hRight,
    ValidSystem.opens_rearranged hSame hOutput,
    ValidSystem.openCoefficient_rearranged hSame hLeft,
    ValidSystem.openCoefficient_rearranged hSame hRight,
    ValidSystem.openCoefficient_rearranged hSame hOutput]
  cases swapped with
  | false => rfl
  | true =>
      simp only [if_true]
      tauto

/-- A constraint that can be solved can be solved in its rearranged form. -/
theorem CompiledSystem.Solvable.rearranged {wires : Array (Fp p)}
    (h : solver.system.Solvable resolver node wires c) :
    (solver.withConstraints cs digest).system.Solvable resolver' node
      wires c' where
  fed := fun wire hStarves =>
    h.fed wire ((ValidSystem.starves_rearranged hSame).mp hStarves)
  uncrowded := fun hCrowded =>
    h.uncrowded ((ValidSystem.crowded_rearranged hSame hRearranged).mp hCrowded)
  determined := fun hDegenerate =>
    h.determined ((degenerate_rearranged hSame hRearranged).mp hDegenerate)

end Obstacles

/-! ## Solutions -/

/-- The solution of a rearranged system of `numConstraints` constraints: it has
the same witness, and in the rows of constraints whose factors have changed
places, so have their values. -/
structure Solution.Rearranges (swapped : Nat → Bool) (numConstraints : Nat)
    (solution solution' : Solution p) : Prop where
  witness : solution'.witness = solution.witness
  c : solution'.c = solution.c
  a : ∀ row : Nat, solution'.a[row]? =
    if row < numConstraints ∧ swapped row then solution.b[row]?
      else solution.a[row]?
  b : ∀ row : Nat, solution'.b[row]? =
    if row < numConstraints ∧ swapped row then solution.a[row]?
      else solution.b[row]?

namespace Solver

variable {swapped : Nat → Bool}
  (hRearranges : Rearranges swapped solver.system.constraints cs)
include hRearranges

section Rows

variable {publicInputs secretInputs : List (Fp p)}
  {solution solution' : Solution p}
  (h : solution.Sound solver publicInputs secretInputs)
  (h' : solution'.Sound
    (solver.withConstraints cs digest) publicInputs secretInputs)
  (hWitness : solution'.witness = solution.witness) {row : Nat}
include h h' hWitness

/-- The row of a constraint holds the values of its factors, where they are
now. -/
private theorem constraintRow_rearranged
    (hRow : row < solver.system.numConstraints) :
    solution'.a[row]? =
      (if swapped row then solution.b[row]? else solution.a[row]?) ∧
      solution'.b[row]? =
        (if swapped row then solution.a[row]? else solution.b[row]?) ∧
      solution'.c[row]? = solution.c[row]? := by
  have hGet := Array.getElem?_eq_getElem hRow
  obtain ⟨c', hGet', hRearranged⟩ := hRearranges.exists_rearranged hGet
  obtain ⟨left, right, output, hA, hB, hC, hLeft, hRight, hOutput, -⟩ :=
    h.constraints row _ hGet
  obtain ⟨left', right', output', hA', hB', hC', hLeft', hRight',
    hOutput', -⟩ :=
    h'.constraints row c' hGet'
  obtain ⟨hLeftSame, hRightSame, hOutputSame⟩ :=
    CompiledSystem.evaluate_rearranged hRearranged hLeft hRight hOutput
  rw [hWitness, evaluate_withConstraints] at hLeft' hRight' hOutput'
  rw [hLeft'] at hLeftSame
  rw [hRight'] at hRightSame
  rw [hOutput'] at hOutputSame
  injection hLeftSame with hLeftSame
  injection hRightSame with hRightSame
  injection hOutputSame with hOutputSame
  rw [hA, hB, hC, hA', hB', hC', hLeftSame, hRightSame, hOutputSame]
  cases swapped row with
  | false => exact ⟨rfl, rfl, rfl⟩
  | true => exact ⟨rfl, rfl, rfl⟩

/-- The rows after those of the constraints stay as they are. -/
private theorem laterRow_rearranged (hFit : solver.system.CountsFit)
    (hRow : solver.system.numConstraints ≤ row) :
    solution'.a[row]? = solution.a[row]? ∧
      solution'.b[row]? = solution.b[row]? ∧
      solution'.c[row]? = solution.c[row]? := by
  obtain ⟨wire, rfl⟩ := Nat.exists_eq_add_of_le hRow
  by_cases hPublic : wire < solver.system.layout.numPublic.toNat
  · obtain ⟨value, hValue, hA, hB, hC⟩ := h.publicRows wire hPublic
    obtain ⟨value', hValue', hA', hB', hC'⟩ := h'.publicRows wire hPublic
    have hNumber : (solver.withConstraints cs digest).system.numConstraints =
        solver.system.numConstraints := hRearranges.size
    rw [hNumber] at hA' hB' hC'
    rw [hWitness, hValue] at hValue'
    rw [hA, hB, hC, hA', hB', hC', hValue']
    exact ⟨rfl, rfl, rfl⟩
  · -- There are no more rows than those of constraints and public wires.
    have hRows :
        solver.system.numRows ≤ solver.system.numConstraints + wire := by
      rw [hFit.numRows_eq]
      exact Nat.add_le_add_left (Nat.le_of_not_lt hPublic) _
    have hSameRows : (solver.withConstraints cs digest).system.numRows =
        solver.system.numRows :=
      numRows_rearranged hRearranges
    have hNone : ∀ {values : List (Fp p)},
        values.length = solver.system.numRows →
        values[solver.system.numConstraints + wire]? = none :=
      fun hLength => List.getElem?_eq_none (hLength ▸ hRows)
    rw [hNone h.length_a, hNone h.length_b, hNone h.length_c,
      hNone (h'.length_a.trans hSameRows), hNone (h'.length_b.trans hSameRows),
      hNone (h'.length_c.trans hSameRows)]
    exact ⟨rfl, rfl, rfl⟩

/-- Sound solutions of a system and of the rearranged system with one witness
have the same rows, up to factors that have changed places. -/
private theorem rows_rearranged (hFit : solver.system.CountsFit) :
    solution.Rearranges swapped solver.system.numConstraints solution' := by
  have hRow : ∀ row : Nat,
      solution'.a[row]? =
        (if row < solver.system.numConstraints ∧ swapped row then
        solution.b[row]? else solution.a[row]?) ∧
      solution'.b[row]? =
        (if row < solver.system.numConstraints ∧ swapped row then
        solution.a[row]? else solution.b[row]?) ∧
          solution'.c[row]? = solution.c[row]? := by
    intro row
    by_cases hConstraint : row < solver.system.numConstraints
    · simp only [hConstraint, true_and]
      exact constraintRow_rearranged hRearranges h h' hWitness hConstraint
    · simp only [hConstraint, false_and, if_false]
      exact laterRow_rearranged hRearranges h h' hWitness hFit
        (Nat.le_of_not_lt hConstraint)
  exact
    { witness := hWitness
      c := List.ext_getElem? fun row => (hRow row).2.2
      a := fun row => (hRow row).1
      b := fun row => (hRow row).2.1 }

end Rows

/-- A solution of a system comes with one of the rearranged system. -/
private theorem exists_solution_rearranged [Fact p.Prime]
    {resolution resolution' : Resolution}
    (hPlan : solver.system.Planned resolution)
    (hPlan' : (solver.withConstraints cs digest).system.Planned resolution')
    {publicInputs secretInputs : List (Fp p)} {solution : Solution p}
    (hSolve : solver.solve publicInputs secretInputs = .ok solution) :
    ∃ solution',
      (solver.withConstraints cs digest).solve publicInputs secretInputs =
        .ok solution' ∧ solution.Rearranges swapped solver.system.numConstraints
          solution' := by
  have hSame :=
    ValidSystem.resolver_rearranged hRearranges hPlan.wellFormed hPlan.resolved
      hPlan'.resolved
  obtain ⟨steps, -, hFinished⟩ := solve_finished hPlan hSolve
  obtain ⟨-, hCounts, -, -, -⟩ := solve_eq_ok hSolve
  have hCounts' : (solver.withConstraints cs digest).system.countsFit = true :=
    (countsFit_rearranged hRearranges).trans hCounts
  obtain ⟨solution', hSolve', hWitness⟩ :=
    (hFinished.admissible.rearranged hRearranges).exists_solution hPlan'
      hCounts' (by
      intro node c' hGet'
      obtain ⟨c, hGet, hRearranged⟩ := hRearranges.exists_original hGet'
      exact (solve_solvable hPlan hSolve hGet).rearranged hSame hRearranged)
  exact ⟨solution', hSolve',
    rows_rearranged hRearranges (solution_sound hPlan hSolve)
    (solution_sound hPlan' hSolve') hWitness
      (ValidSystem.countsFit_spec hCounts)⟩

/-- A system and the rearranged system are solved for the same inputs. -/
private theorem solve_rearranged [Fact p.Prime]
    {resolution resolution' : Resolution}
    (hPlan : solver.system.Planned resolution)
    (hPlan' : (solver.withConstraints cs digest).system.Planned resolution')
    (publicInputs secretInputs : List (Fp p)) :
    ((∃ solution, solver.solve publicInputs secretInputs = .ok solution) ↔
      ∃ solution',
        (solver.withConstraints cs digest).solve publicInputs secretInputs =
        .ok solution') ∧
    ∀ solution solution',
      solver.solve publicInputs secretInputs = .ok solution →
      (solver.withConstraints cs digest).solve publicInputs secretInputs =
        .ok solution' →
        solution.Rearranges swapped solver.system.numConstraints solution' := by
  refine ⟨⟨?_, ?_⟩, ?_⟩
  · rintro ⟨solution, hSolve⟩
    obtain ⟨solution', hSolve', -⟩ :=
      exists_solution_rearranged hRearranges hPlan hPlan' hSolve
    exact ⟨solution', hSolve'⟩
  · -- The system is the rearranged form of its rearranged form.
    rintro ⟨solution', hSolve'⟩
    have hBack :
        Rearranges swapped (solver.withConstraints cs digest).system.constraints
          solver.system.constraints := hRearranges.symm
    have hPlanBack : ((solver.withConstraints cs digest).withConstraints
        solver.system.constraints
        solver.system.digest).system.Planned resolution := hPlan
    obtain ⟨solution, hSolve, -⟩ :=
      exists_solution_rearranged hBack hPlan' hPlanBack hSolve'
    exact ⟨solution, hSolve⟩
  · intro solution solution' hSolve hSolve'
    obtain ⟨again, hAgain, hRows⟩ :=
      exists_solution_rearranged hRearranges hPlan hPlan' hSolve
    rw [hSolve'] at hAgain
    injection hAgain with hAgain
    exact hAgain ▸ hRows

end Solver

/-! ## Compiling -/

omit [Modulus p] in
/-- When a system compiles none of whose hints reads a wire of its own
constraint, the rearranged system compiles. -/
private theorem CompiledSystem.exists_compile_rearranged
    {settings : SchedulerSettings} {flat : FlatSystem p} {swapped : Nat → Bool}
    (hRearranges : Rearranges swapped flat.constraints cs)
    {valid : ValidSystem p} (hValid : flat.validate = .ok valid)
    (hFed : ∀ wire, ¬ valid.ReadsOwnWire wire)
    (hCompile : ∃ system, compile settings flat = .ok system) :
    ∃ system', compile settings { flat with constraints := cs } =
      .ok system' := by
  have hValid' := FlatSystem.validate_rearranged hRearranges hValid
  obtain ⟨rfl, hSystem⟩ := FlatSystem.validate_wellFormed hValid
  obtain ⟨-, hSystem'⟩ := FlatSystem.validate_wellFormed hValid'
  obtain ⟨system, hCompile⟩ := hCompile
  obtain ⟨valid', hAgain, schedule, hSchedule, -⟩ := compile_eq_ok.mp hCompile
  rw [hValid] at hAgain
  injection hAgain with hAgain
  subst hAgain
  obtain ⟨resolution, hResolution, -, -⟩ :=
    Schedule.ofSystem_eq_ok hSystem hSchedule
  have hCoherent :=
    (ValidSystem.resolution_sound hSystem hResolution).coherent.rearranged
      hRearranges
  obtain ⟨resolution', hResolution'⟩ := hCoherent.exists_resolution hSystem'
    fun node wire hStarves => hFed wire
      ⟨resolution, node, hResolution,
        (ValidSystem.starves_rearranged fun _ => rfl).mp hStarves⟩
  refine ⟨_, compile_eq_ok.mpr ⟨_, hValid', schedule, ?_, rfl⟩⟩
  rw [Schedule.ofSystem_rearranged hRearranges hSystem hSystem' hResolution
    hResolution', hSchedule]

omit [Modulus p] in
/-- When a system and its rearranged form compile, they differ in nothing but
their constraints and their digests. -/
private theorem CompiledSystem.eq_withConstraints {settings : SchedulerSettings}
    {flat : FlatSystem p} {swapped : Nat → Bool}
    (hRearranges : Rearranges swapped flat.constraints cs)
    {system system' : CompiledSystem p}
    (hCompile : compile settings flat = .ok system)
    (hCompile' : compile settings { flat with constraints := cs } =
      .ok system') :
    system.toFlatSystem = flat ∧
      system' =
        { system with constraints := cs, digest := system'.digest } := by
  obtain ⟨valid, hValid, schedule, hSchedule, rfl⟩ := compile_eq_ok.mp hCompile
  obtain ⟨valid', hValid', schedule', hSchedule', rfl⟩ :=
    compile_eq_ok.mp hCompile'
  obtain ⟨-, hSystem'⟩ := FlatSystem.validate_wellFormed hValid'
  rw [FlatSystem.validate_rearranged hRearranges hValid] at hValid'
  injection hValid' with hRearranged
  subst hRearranged
  obtain ⟨rfl, hSystem⟩ := FlatSystem.validate_wellFormed hValid
  obtain ⟨resolution, hResolution, -, -⟩ :=
    Schedule.ofSystem_eq_ok hSystem hSchedule
  obtain ⟨resolution', hResolution', -, -⟩ :=
    Schedule.ofSystem_eq_ok hSystem' hSchedule'
  rw [Schedule.ofSystem_rearranged hRearranges hSystem hSystem' hResolution
    hResolution', hSchedule] at hSchedule'
  injection hSchedule' with hSame
  subst hSame
  exact ⟨rfl, rfl⟩

/-- Whatever the settings, the inputs and the functions of the custom hints are,
a valid system and its rearranged form are treated alike. Either both compile or
neither does, unless a hint reads a wire of its own constraint. When both
compile they have the same schedule, and they are solved for the same inputs
with the same witness and the same rows, up to factors that have changed
places. -/
theorem CompiledSystem.compile_rearranged [Fact p.Prime]
    {settings : SchedulerSettings} {flat : FlatSystem p} {swapped : Nat → Bool}
    (hRearranges : Rearranges swapped flat.constraints cs)
    {valid : ValidSystem p} (hValid : flat.validate = .ok valid) :
    ((∀ wire, ¬ valid.ReadsOwnWire wire) →
      (∀ wire, ¬ ({ valid with constraints := cs } :
        ValidSystem p).ReadsOwnWire wire) →
        ((∃ system, compile settings flat = .ok system) ↔
          ∃ system', compile settings { flat with constraints := cs } =
            .ok system')) ∧
    ∀ solver solver' : Solver p, compile settings flat = .ok solver.system →
      compile settings { flat with constraints := cs } = .ok solver'.system →
        solver'.system.schedule = solver.system.schedule ∧
        (solver'.functions = solver.functions → ∀ publicInputs secretInputs,
          ((∃ solution, solver.solve publicInputs secretInputs = .ok solution) ↔
            ∃ solution',
              solver'.solve publicInputs secretInputs = .ok solution') ∧
          ∀ solution solution',
            solver.solve publicInputs secretInputs = .ok solution →
            solver'.solve publicInputs secretInputs = .ok solution' →
              solution.Rearranges swapped flat.constraints.size solution') := by
  constructor
  · intro hFed hFed'
    exact ⟨exists_compile_rearranged hRearranges hValid hFed,
      exists_compile_rearranged hRearranges.symm
        (FlatSystem.validate_rearranged hRearranges hValid) hFed'⟩
  · intro solver solver' hCompile hCompile'
    obtain ⟨resolution, hPlan⟩ := compile_planned hCompile
    obtain ⟨resolution', hPlan'⟩ := compile_planned hCompile'
    obtain ⟨rfl, hSystem⟩ := eq_withConstraints hRearranges hCompile hCompile'
    refine ⟨by rw [hSystem], fun hFunctions publicInputs secretInputs => ?_⟩
    have hSolver :
        solver' = solver.withConstraints cs solver'.system.digest := by
      cases solver'
      unfold Solver.withConstraints
      rw [← hSystem, ← hFunctions]
    rw [hSolver] at hPlan' ⊢
    exact Solver.solve_rearranged hRearranges hPlan hPlan' publicInputs
      secretInputs

/-- The constraints for a square, where the factors of the second and the fourth
have changed places. -/
def squareRearranged : Array Constraint := #[
  ⟨[⟨0, 2⟩], [⟨0, 2⟩], [⟨0, 3⟩]⟩,
  ⟨[⟨0, 0⟩], [⟨0, 4⟩, ⟨0, 4⟩], [⟨0, 3⟩]⟩,
  ⟨[⟨0, 6⟩], [⟨0, 0⟩], [⟨0, 5⟩]⟩,
  ⟨[⟨0, 5⟩], [⟨0, 2⟩], []⟩,
  ⟨[⟨0, 3⟩], [⟨0, 0⟩], [⟨0, 1⟩]⟩]

private theorem rearranges_square :
    Rearranges (fun number =>
      number % 2 == 1) squareSystem.constraints squareRearranged where
  size := rfl
  constraint := by
    intro number c c' hGet hGet'
    have hNumber : number < 5 := (Array.getElem?_eq_some_iff.mp hGet).1
    interval_cases number
    all_goals
      injection hGet with hGet
      injection hGet' with hGet'
      subst hGet hGet'
      exact ⟨by decide, by decide, by decide⟩

/-- The square of five is found either way, and some of its factors change
places. No hint reads a wire of its own constraint. -/
theorem compile_rearranged_square :
    ∃ (valid : ValidSystem 17)
      (solver solver' : Solver 17) (solution solution' : Solution 17),
      squareSystem.validate = .ok valid ∧
      CompiledSystem.compile {} squareSystem = .ok solver.system ∧
      CompiledSystem.compile {} { squareSystem with
        constraints := squareRearranged } =
        .ok solver'.system ∧
      (∀ wire, ¬ valid.ReadsOwnWire wire) ∧
      (∀ wire, ¬ ({ valid with constraints := squareRearranged } :
        ValidSystem 17).ReadsOwnWire wire) ∧
      ((∃ system, CompiledSystem.compile {} squareSystem = .ok system) ↔
        ∃ system', CompiledSystem.compile {} { squareSystem with
          constraints := squareRearranged } = .ok system') ∧
      solver.solve [Fp.ofNat 17 8] [Fp.ofNat 17 5] = .ok solution ∧
      solver'.solve [Fp.ofNat 17 8] [Fp.ofNat 17 5] = .ok solution' ∧
      solution.Rearranges (fun number => number % 2 == 1) 5 solution' ∧
      solution.a ≠ solution'.a := by
  have hRun :
      ((CompiledSystem.compile {} squareSystem).toOption.any fun system =>
        (CompiledSystem.compile {} { squareSystem with
          constraints := squareRearranged }).toOption.any fun system' =>
          ((Solver.ofSystem system).solve [Fp.ofNat 17 8]
            [Fp.ofNat 17 5]).toOption.any
            fun solution =>
              ((Solver.ofSystem system').solve [Fp.ofNat 17 8]
                [Fp.ofNat 17 5]).toOption.any
                fun solution' => decide (solution.a ≠ solution'.a)) = true := by
    decide +kernel
  simp only [Option.any_eq_true, toOption_eq_some, decide_eq_true_eq] at hRun
  obtain ⟨system, hCompile, system', hCompile', solution, hSolve, solution',
    hSolve', hMoved⟩ :=
    hRun
  have hFed := Solver.not_readsOwnWire (Solver.ofSystem system) hCompile hSolve
  have hFed' :=
    Solver.not_readsOwnWire (Solver.ofSystem system') hCompile' hSolve'
  obtain ⟨valid, hValid, schedule, -, rfl⟩ :=
    CompiledSystem.compile_eq_ok.mp hCompile
  obtain ⟨-, hSystem⟩ :=
    CompiledSystem.eq_withConstraints rearranges_square hCompile hCompile'
  rw [hSystem] at hFed'
  have hAlike :
      (∃ system, CompiledSystem.compile {} squareSystem = .ok system) ↔
      ∃ system', CompiledSystem.compile {} { squareSystem with
        constraints := squareRearranged } = .ok system' :=
    (CompiledSystem.compile_rearranged rearranges_square hValid).1 hFed hFed'
  obtain ⟨-, hSolved⟩ :=
    (CompiledSystem.compile_rearranged rearranges_square hValid).2
      (Solver.ofSystem _) (Solver.ofSystem system') hCompile hCompile'
  obtain ⟨-, hRows⟩ := hSolved rfl [Fp.ofNat 17 8] [Fp.ofNat 17 5]
  exact ⟨valid, Solver.ofSystem _, Solver.ofSystem system', solution, solution',
    hValid, hCompile, hCompile', hFed, hFed', hAlike, hSolve, hSolve',
    hRows solution solution' hSolve hSolve', hMoved⟩

/-- A system like `starvedSystem`, whose constraint asks that the first internal
wire times the second be the secret. -/
def crossedSystem : FlatSystem 17 :=
  { starvedSystem with constraints := #[⟨[⟨0, 2⟩], [⟨0, 3⟩], [⟨0, 1⟩]⟩] }

/-- Whether a valid system compiles may change when factors change places. -/
theorem not_compile_rearranged :
    ¬ ∀ (settings : SchedulerSettings) (swapped : Nat → Bool)
    (flat : FlatSystem 17) (cs : Array Constraint) (valid : ValidSystem 17),
      Rearranges swapped flat.constraints cs → flat.validate = .ok valid →
        ((∃ system, CompiledSystem.compile settings flat = .ok system) ↔
          ∃ system',
            CompiledSystem.compile settings { flat with constraints := cs } =
            .ok system') := by
  intro hBothCompile
  have hRun : (((CompiledSystem.compile {} crossedSystem).toOption.isSome &&
      ((CompiledSystem.compile {} { crossedSystem with
        constraints :=
          #[⟨[⟨0, 3⟩], [⟨0, 2⟩], [⟨0, 1⟩]⟩] }).toOption.isNone))) = true := by
    decide +kernel
  rw [Bool.and_eq_true, isSome_toOption, Option.isNone_iff_eq_none] at hRun
  obtain ⟨⟨system, hCompile⟩, hFault⟩ := hRun
  obtain ⟨valid, hValid, -⟩ := CompiledSystem.compile_eq_ok.mp hCompile
  have hRearranges : Rearranges (fun _ => true) crossedSystem.constraints
      #[⟨[⟨0, 3⟩], [⟨0, 2⟩], [⟨0, 1⟩]⟩] :=
    { size := rfl
      constraint := by
        intro number c c' hGet hGet'
        have hNumber : number < 1 := (Array.getElem?_eq_some_iff.mp hGet).1
        obtain rfl : number = 0 := by omega
        injection hGet with hGet
        injection hGet' with hGet'
        subst hGet hGet'
        exact ⟨by decide, by decide, by decide⟩ }
  obtain ⟨system', hCompile'⟩ :=
    (hBothCompile {} _ crossedSystem _ valid hRearranges hValid).mp ⟨system,
      hCompile⟩
  rw [hCompile'] at hFault
  cases hFault

end RankOne
