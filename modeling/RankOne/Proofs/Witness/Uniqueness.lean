import RankOne.Proofs.Witness.Failure

/-!
# The solver finds the only admissible assignment

An assignment of all wires is admissible for given inputs when it agrees with
them and satisfies every constraint and every hint. A solution is admissible,
and no other assignment is: all values that the solver writes are forced. For
the same reason an instance is only rejected as unsatisfied, or because of a
hint, when no assignment is admissible.
-/

namespace RankOne

variable {p : Nat} [Modulus p]

/-- A full assignment that agrees with the inputs and satisfies the system. -/
structure Solver.Admissible (solver : Solver p)
    (publicInputs secretInputs witness : List (Fp p)) :
    Prop extends solver.Satisfies witness.toArray where
  length_witness : witness.length = solver.system.layout.numWires
  length_public : publicInputs.length + 1 = solver.system.layout.numPublic.toNat
  length_secret : secretInputs.length = solver.system.layout.numSecret.toNat
  one : witness[0]? = some 1
  publicInputs :
    (witness.take solver.system.layout.numPublic.toNat).drop 1 = publicInputs
  secretInputs : (witness.drop solver.system.layout.numPublic.toNat).take
    solver.system.layout.numSecret.toNat = secretInputs

namespace Solver.Admissible

variable {solver : Solver p} {publicInputs secretInputs witness : List (Fp p)}
  (h : solver.Admissible publicInputs secretInputs witness)
include h

/-- The values of an admissible assignment start with one and the inputs. -/
private theorem take_inputs :
    witness.take (solver.system.layout.numPublic.toNat +
      solver.system.layout.numSecret.toNat) =
      1 :: (publicInputs ++ secretInputs) := by
  have hPublic : witness.take solver.system.layout.numPublic.toNat =
      1 :: publicInputs := by
    have hOne := h.one
    have hRest := h.publicInputs
    rw [← h.length_public] at hRest ⊢
    cases witness with
    | nil => cases hOne
    | cons first rest =>
        injection hOne with hFirst
        rw [List.take_succ_cons, List.drop_succ_cons, List.drop_zero] at hRest
        rw [List.take_succ_cons, hRest, hFirst]
  rw [List.take_add, hPublic, h.secretInputs, List.cons_append]

private theorem inputs_le :
    solver.system.layout.numPublic.toNat +
      solver.system.layout.numSecret.toNat ≤ solver.system.layout.numWires := by
  have hLength := congrArg List.length h.take_inputs
  have hPublic := h.length_public
  have hSecret := h.length_secret
  rw [List.length_take, h.length_witness, List.length_cons, List.length_append]
    at hLength
  omega

private theorem checkInputs :
    solver.checkInputs publicInputs secretInputs = .ok () := by
  have hPublic := h.length_public
  unfold Solver.checkInputs
  dsimp only
  rw [if_neg (by omega), if_neg (not_not.mpr h.length_secret)]

/-- A run starts from values of every admissible assignment. -/
private theorem fits {resolution : Resolution}
    (hPlan : solver.system.Planned resolution)
    (hFit : solver.system.CountsFit) :
    solver.Fits (solver.initialValues publicInputs secretInputs)
      [] witness.toArray := by
  obtain ⟨hKnows, hInitial⟩ :=
    initialValues_knows resolution.resolver hFit.inputs_le
      (length_inputs hPlan hFit h.checkInputs)
  refine ⟨h.toSatisfies, ?_, by simp⟩
  intro wire value hKnown
  have hBound := hKnows.size ▸ (Array.getElem?_eq_some_iff.mp hKnown).1
  rcases (hKnows.knows wire hBound).mp ⟨value, hKnown⟩
    with hInput | ⟨node, hNode, -⟩
  · rw [hInitial wire hInput, ← h.take_inputs, ← hFit.numInputs_eq,
      List.getElem?_take_of_lt hInput, Option.map_eq_some_iff] at hKnown
    obtain ⟨value', hValue, hSame⟩ := hKnown
    injection hSame with hSame
    rw [List.getElem?_toArray, hValue, hSame]
  · simp at hNode

/-- A solution is the admissible assignment. -/
private theorem eq_of_solve [Fact p.Prime] {resolution : Resolution}
    (hPlan : solver.system.Planned resolution) {solution : Solution p}
    (hSolve : solver.solve publicInputs secretInputs = .ok solution) :
    witness = solution.witness := by
  obtain ⟨-, hCounts, -, hComplete, -⟩ := solve_eq_ok hSolve
  obtain ⟨hSatisfies, hInitial⟩ :=
    h.fits hPlan (ValidSystem.countsFit_spec hCounts)
  have hForced : Assigns witness.toArray
      (solver.trace publicInputs secretInputs).known [] :=
    runLevels_forced hSatisfies hInitial
  obtain ⟨steps, -, hFinished⟩ := solve_finished hPlan hSolve
  apply List.ext_getElem
  · rw [h.length_witness, hFinished.length_witness]
  · intro wire hLeft hRight
    have hKnown : (solver.trace publicInputs secretInputs).known[wire]? =
        some (some solution.witness[wire]) := by
      rw [← Array.getElem?_toList, complete_eq_ok hComplete, List.getElem?_map,
        List.getElem?_eq_getElem hRight]
      rfl
    have hValue := hForced.known wire _ hKnown
    rw [List.getElem?_toArray, List.getElem?_eq_getElem hLeft] at hValue
    injection hValue

end Solver.Admissible

namespace Solver

theorem Finished.admissible {solver : Solver p}
    {publicInputs secretInputs witness : List (Fp p)} {steps : List (Step p)}
    (h : solver.Finished publicInputs secretInputs witness steps) :
    solver.Admissible publicInputs secretInputs witness where
  constraints := by
    intro number c hGet
    obtain ⟨left, right, output, -, -, -, hLeft, hRight, hOutput, hHolds⟩ :=
      h.constraints hGet
    exact ⟨left, right, output, hLeft, hRight, hOutput, hHolds⟩
  hints := h.hints
  length_witness := h.length_witness
  length_public := h.length_public
  length_secret := h.length_secret
  one := h.sound.one
  publicInputs := h.sound.publicInputs
  secretInputs := h.sound.secretInputs

/-- When an assignment is left, a failure is an obstacle to solving a
constraint. -/
private theorem Explained.obstacle {solver : Solver p}
    {resolver : Std.TreeMap Nat Nat} {node : Nat} {c : Constraint}
    {Possible : Array (Fp p) → Prop} {failure : Failure SolveError}
    (h : solver.Explained resolver node c Possible failure)
    {wires : Array (Fp p)} (hWires : Possible wires) :
    (∃ constraint wire,
      failure = .reported (.unsolvableDivision constraint wire)) ∨
      (∃ constraint, failure = .reported (.multipleUnknowns constraint)) ∨
        ∃ wire, failure = .reported (.unresolvedWire wire) := by
  unfold Explained at h
  split at h
  · next wire => exact Or.inr (Or.inr ⟨wire, rfl⟩)
  · next constraint => exact Or.inr (Or.inl ⟨constraint, rfl⟩)
  · next constraint wire => exact Or.inl ⟨constraint, wire, rfl⟩
  · exact absurd hWires (h wires)
  · exact absurd hWires (h wires)
  · exact absurd hWires (h wires)
  · exact h.elim
  · exact h.elim

/-- While an assignment is left, a constraint fails only if it cannot be
solved. -/
private theorem Explained.not_solvable {solver : Solver p}
    {resolver : Std.TreeMap Nat Nat} {node : Nat} {c : Constraint}
    {Possible : Array (Fp p) → Prop} {failure : Failure SolveError}
    (h : solver.Explained resolver node c Possible failure)
    {wires : Array (Fp p)} (hWires : Possible wires) :
    ¬ solver.system.Solvable resolver node wires c := by
  intro hSolvable
  unfold Explained at h
  split at h
  · exact hSolvable.fed _ h
  · exact hSolvable.uncrowded h
  · exact hSolvable.determined (h wires hWires)
  · exact h wires hWires
  · exact h wires hWires
  · exact h wires hWires
  · exact h
  · exact h

/-- An admissible assignment is found when no obstacle stands against solving
the constraints. -/
theorem Admissible.exists_solution [Fact p.Prime] {solver : Solver p}
    {resolution : Resolution} {publicInputs secretInputs witness : List (Fp p)}
    (hPlan : solver.system.Planned resolution)
    (h : solver.Admissible publicInputs secretInputs witness)
    (hCounts : solver.system.countsFit = true)
    (hSolvable : ∀ node c, solver.system.constraints[node]? = some c →
      solver.system.Solvable resolution.resolver node witness.toArray c) :
    ∃ solution, solver.solve publicInputs secretInputs = .ok solution ∧
      solution.witness = witness := by
  cases hSolve : solver.solve publicInputs secretInputs with
  | ok solution => exact ⟨solution, rfl, (h.eq_of_solve hPlan hSolve).symm⟩
  | error failure =>
      rcases solve_failure hPlan hSolve with
        ⟨e, hCheck, -⟩ | ⟨hWrapped, -⟩ | ⟨-, node, c, hGet, hExplained⟩
      · rw [h.checkInputs] at hCheck
        cases hCheck
      · rw [hCounts] at hWrapped
        cases hWrapped
      · exact absurd (hSolvable node c hGet)
          (hExplained.not_solvable
            (h.fits hPlan (ValidSystem.countsFit_spec hCounts)))

/-- While there is an admissible assignment, nothing but an obstacle to solving
a constraint may be reported. -/
private theorem Admissible.obstacle [Fact p.Prime] {solver : Solver p}
    {resolution : Resolution} {publicInputs secretInputs witness : List (Fp p)}
    {e : SolveError} (h : solver.Admissible publicInputs secretInputs witness)
    (hPlan : solver.system.Planned resolution)
    (hReport : solver.MayReport publicInputs secretInputs e) :
    (∃ constraint wire, e = .unsolvableDivision constraint wire) ∨
      (∃ constraint, e = .multipleUnknowns constraint) ∨
        ∃ wire, e = .unresolvedWire wire := by
  rcases hReport.explained hPlan with hCheck | ⟨hCounts, node, c, -, hExplained⟩
  · rw [h.checkInputs] at hCheck
    cases hCheck
  · simpa using hExplained.obstacle
      (h.fits hPlan (ValidSystem.countsFit_spec hCounts))

/-- Whatever the settings, the inputs and the functions of the custom hints are:
an admissible assignment is found, or a constraint cannot be solved for its
wire; a solution is the only admissible assignment; and when a constraint is
reported as unsatisfied, or a hint as failed or missing, there is none. The same
holds of every error that may be reported when tasks run side by side, and where
one may be there is no solution. (Arrays in memory have less than `2 ^ 63`
entries.) -/
theorem solve_honest [Fact p.Prime] {settings : SchedulerSettings}
    {flat : FlatSystem p} (solver : Solver p)
    (publicInputs secretInputs : List (Fp p))
    (hCompile : CompiledSystem.compile settings flat = .ok solver.system) :
    (solver.system.constraints.size < 2 ^ 63 → ∀ witness,
      solver.Admissible publicInputs secretInputs witness →
        (∃ solution, solver.solve publicInputs secretInputs = .ok solution ∧
          solution.witness = witness) ∨
        (∃ constraint wire, solver.solve publicInputs secretInputs =
          .error (.reported (.unsolvableDivision constraint wire))) ∨
        (∃ constraint, solver.solve publicInputs secretInputs =
          .error (.reported (.multipleUnknowns constraint))) ∨
        ∃ wire, solver.solve publicInputs secretInputs =
          .error (.reported (.unresolvedWire wire))) ∧
    (∀ solution, solver.solve publicInputs secretInputs = .ok solution →
      solver.Admissible publicInputs secretInputs solution.witness ∧
        ∀ witness, solver.Admissible publicInputs secretInputs witness →
          witness = solution.witness) ∧
    (∀ error, solver.solve publicInputs secretInputs =
      .error (.reported error) →
      ((∃ constraint, error = .unsatisfied constraint) ∨
        (∃ wire cause, error = .hintFailed wire cause) ∨
        ∃ missing, error = .missingHint missing) →
      ∀ witness, ¬ solver.Admissible publicInputs secretInputs witness) ∧
    ∀ error, solver.MayReport publicInputs secretInputs error →
      (∀ solution, solver.solve publicInputs secretInputs ≠ .ok solution) ∧
      ∀ witness, solver.Admissible publicInputs secretInputs witness →
        (∃ constraint wire, error = .unsolvableDivision constraint wire) ∨
        (∃ constraint, error = .multipleUnknowns constraint) ∨
        ∃ wire, error = .unresolvedWire wire := by
  obtain ⟨resolution, hPlan⟩ := CompiledSystem.compile_planned hCompile
  refine ⟨?_, ?_, ?_,
    fun error hReport => ⟨hReport.solve_ne_ok, fun witness hAdmissible =>
    hAdmissible.obstacle hPlan hReport⟩⟩
  · intro hSize witness hAdmissible
    have hCounts := hPlan.wellFormed.countsFit hAdmissible.inputs_le hSize
    cases hSolve : solver.solve publicInputs secretInputs with
    | ok solution =>
        exact Or.inl ⟨solution, rfl,
          (hAdmissible.eq_of_solve hPlan hSolve).symm⟩
    | error failure =>
        rcases solve_failure hPlan hSolve with
          ⟨e, hCheck, -⟩ | ⟨hWrapped, -⟩ | ⟨-, node, c, -, hExplained⟩
        · rw [hAdmissible.checkInputs] at hCheck
          cases hCheck
        · rw [hCounts] at hWrapped
          cases hWrapped
        · rcases hExplained.obstacle
              (hAdmissible.fits hPlan (ValidSystem.countsFit_spec hCounts)) with
            ⟨constraint, wire, rfl⟩ | ⟨constraint, rfl⟩ | ⟨wire, rfl⟩
          · exact Or.inr (Or.inl ⟨constraint, wire, rfl⟩)
          · exact Or.inr (Or.inr (Or.inl ⟨constraint, rfl⟩))
          · exact Or.inr (Or.inr (Or.inr ⟨wire, rfl⟩))
  · intro solution hSolve
    obtain ⟨steps, -, hFinished⟩ := solve_finished hPlan hSolve
    exact ⟨hFinished.admissible,
      fun witness hAdmissible => hAdmissible.eq_of_solve hPlan hSolve⟩
  · intro error hSolve hError witness hAdmissible
    have hObstacle := hAdmissible.obstacle hPlan (mayReport_of_solve hSolve)
    rcases hError with ⟨constraint, rfl⟩ | ⟨wire, cause, rfl⟩ | ⟨missing, rfl⟩
    · simp at hObstacle
    · simp at hObstacle
    · simp at hObstacle

end Solver

/-- Five is the secret root of eight in exactly one way, and in no way that of
nine. -/
theorem solve_honest_square : ∃ solver : Solver 17,
    CompiledSystem.compile {} squareSystem = .ok solver.system ∧
      solver.system.constraints.size < 2 ^ 63 ∧
      (∃! witness, solver.Admissible [Fp.ofNat 17 8] [Fp.ofNat 17 5] witness) ∧
      ∀ witness,
        ¬ solver.Admissible [Fp.ofNat 17 9] [Fp.ofNat 17 5] witness := by
  have hRun :
      ((CompiledSystem.compile {} squareSystem).toOption.any fun system =>
        decide (system.constraints.size < 2 ^ 63) &&
          (((Solver.ofSystem system).solve [Fp.ofNat 17 8]
            [Fp.ofNat 17 5]).toOption.any fun _ =>
            decide
              ((Solver.ofSystem system).solve [Fp.ofNat 17 9] [Fp.ofNat 17 5] =
              .error (.reported (.unsatisfied 4))))) = true := by
    decide +kernel
  simp only [Option.any_eq_true, toOption_eq_some, decide_eq_true_eq,
    Bool.and_eq_true] at hRun
  obtain ⟨system, hCompile, hSize, solution, hSolve, hReject⟩ := hRun
  obtain ⟨-, hAccepted, -, -⟩ := Solver.solve_honest (Solver.ofSystem system)
    [Fp.ofNat 17 8] [Fp.ofNat 17 5] hCompile
  obtain ⟨-, -, hRejected, -⟩ := Solver.solve_honest (Solver.ofSystem system)
    [Fp.ofNat 17 9] [Fp.ofNat 17 5] hCompile
  obtain ⟨hAdmissible, hUnique⟩ := hAccepted solution hSolve
  exact ⟨Solver.ofSystem system, hCompile, hSize, ⟨solution.witness,
    hAdmissible, hUnique⟩, hRejected _ hReject (Or.inl ⟨4, rfl⟩)⟩

end RankOne
