import RankOne.Proofs.Witness.Failure

/-!
# Hints that read a wire of their own constraint

A constraint runs its hints before it is solved. When one of them reads the very
wire for which the constraint is to be solved, the wire has no value yet. The
resolution pass accepts such a system where the wire is mentioned before the
output of the hint, since the wire is resolved then, by this constraint. This is
the only way in which a hint can miss a wire, and no inputs can help it.
-/

namespace RankOne

variable {p : Nat}

/-- Some constraint runs a hint that reads the wire for which the constraint is
to be solved. -/
def ValidSystem.ReadsOwnWire (system : ValidSystem p) (wire : Nat) : Prop :=
  ∃ resolution node, system.resolution = .ok resolution ∧
    system.Starves resolution.resolver node wire

/-- No hint of a system that is solved reads a wire of its own constraint. -/
theorem Solver.not_readsOwnWire [Modulus p] [Fact p.Prime]
    {settings : SchedulerSettings} {flat : FlatSystem p} (solver : Solver p)
    (hCompile : CompiledSystem.compile settings flat = .ok solver.system)
    {publicInputs secretInputs : List (Fp p)} {solution : Solution p}
    (hSolve : solver.solve publicInputs secretInputs = .ok solution)
    (wire : Nat) :
    ¬ solver.system.ReadsOwnWire wire := by
  obtain ⟨resolution, hResolution, hPlan⟩ :=
    CompiledSystem.compile_resolution hCompile
  rintro ⟨resolution', node, hResolution', hStarves⟩
  rw [hResolution] at hResolution'
  injection hResolution' with hSame
  subst hSame
  have hNode := (hPlan.resolved.bounded wire node hStarves.1.1).1
  exact (solve_solvable hPlan hSolve (Array.getElem?_eq_getElem hNode)).fed
    wire hStarves

/-- Whatever the settings, the inputs and the functions of the custom hints are:
a run that stops at an unresolved wire, or that may do so when tasks run side by
side, does so because a hint reads a wire of its own constraint, and a system
with such a hint is never solved. -/
theorem Solver.solve_starved [Modulus p] [Fact p.Prime]
    {settings : SchedulerSettings} {flat : FlatSystem p} (solver : Solver p)
    (hCompile : CompiledSystem.compile settings flat = .ok solver.system) :
    (∀ publicInputs secretInputs wire,
      solver.solve publicInputs secretInputs =
        .error (.reported (.unresolvedWire wire)) →
        solver.system.ReadsOwnWire wire) ∧
    (∀ publicInputs secretInputs wire,
      solver.MayReport publicInputs secretInputs (.unresolvedWire wire) →
        solver.system.ReadsOwnWire wire) ∧
    ∀ wire, solver.system.ReadsOwnWire wire →
      ∀ publicInputs secretInputs solution,
      solver.solve publicInputs secretInputs ≠ .ok solution := by
  have hOnly : ∀ publicInputs secretInputs wire,
      solver.MayReport publicInputs secretInputs (.unresolvedWire wire) →
        solver.system.ReadsOwnWire wire := by
    intro publicInputs secretInputs wire hReport
    obtain ⟨resolution, hResolution, hPlan⟩ :=
      CompiledSystem.compile_resolution hCompile
    rcases hReport.explained hPlan with hCheck | ⟨-, node, c, -, hStarves⟩
    · obtain ⟨kind, expected, actual, hMismatch⟩ := checkInputs_eq_error hCheck
      cases hMismatch
    · exact ⟨resolution, node, hResolution, hStarves⟩
  refine ⟨fun _ _ wire hSolve => hOnly _ _ wire (mayReport_of_solve hSolve),
    hOnly, ?_⟩
  intro wire hReads publicInputs secretInputs solution hSolve
  exact not_readsOwnWire solver hCompile hSolve wire hReads

/-- A system whose wires are one, a secret, and two internal wires. The
constraint asks that the first internal wire times the secret be the second; a
hint sets the second to one for a first that is zero. -/
def starvedSystem : FlatSystem 17 where
  layout := ⟨1, 1, 2⟩
  constraints := #[⟨[⟨0, 2⟩], [⟨0, 1⟩], [⟨0, 3⟩]⟩]
  coefficients := #[1]
  hints := #[⟨.isZero, [.expression [⟨0, 2⟩]], [3]⟩]

/-- The system compiles, and on an input of the right number its hint misses the
wire that the constraint is to find. -/
private theorem starvedSystem_unresolved : ∃ solver : Solver 17,
    CompiledSystem.compile {} starvedSystem = .ok solver.system ∧
      solver.checkInputs [] [Fp.ofNat 17 5] = .ok () ∧
      solver.solve [] [Fp.ofNat 17 5] =
        .error (.reported (.unresolvedWire 2)) := by
  have hRun :
      ((CompiledSystem.compile {} starvedSystem).toOption.any fun system =>
        decide ((Solver.ofSystem system).checkInputs [] [Fp.ofNat 17 5] =
          .ok ()) &&
          decide ((Solver.ofSystem system).solve [] [Fp.ofNat 17 5] =
            .error (.reported (.unresolvedWire 2)))) = true := by
    decide +kernel
  simp only [Option.any_eq_true, toOption_eq_some, decide_eq_true_eq,
    Bool.and_eq_true] at hRun
  obtain ⟨system, hCompile, hCheck, hSolve⟩ := hRun
  exact ⟨Solver.ofSystem system, hCompile, hCheck, hSolve⟩

/-- The first internal wire of the system is its own hint's undoing. -/
theorem solve_starved_hint : ∃ solver : Solver 17,
    CompiledSystem.compile {} starvedSystem = .ok solver.system ∧
      solver.system.ReadsOwnWire 2 ∧ ∀ publicInputs secretInputs solution,
        solver.solve publicInputs secretInputs ≠ .ok solution := by
  obtain ⟨solver, hCompile, -, hSolve⟩ := starvedSystem_unresolved
  obtain ⟨hOnly, -, hNever⟩ := Solver.solve_starved solver hCompile
  have hReads := hOnly _ _ _ hSolve
  exact ⟨solver, hCompile, hReads, hNever 2 hReads⟩

/-- Compiling a system does not rule out that a run stops at an unresolved
wire. -/
theorem not_compile_resolves :
    ¬ ∀ (settings : SchedulerSettings) (flat : FlatSystem 17)
    (solver : Solver 17)
    (publicInputs secretInputs : List (Fp 17)) (wire : Nat),
      CompiledSystem.compile settings flat = .ok solver.system →
        solver.checkInputs publicInputs secretInputs = .ok () →
          solver.solve publicInputs secretInputs ≠
            .error (.reported (.unresolvedWire wire)) := by
  intro hAllResolved
  obtain ⟨solver, hCompile, hCheck, hSolve⟩ := starvedSystem_unresolved
  exact hAllResolved {} starvedSystem solver _ _ 2 hCompile hCheck hSolve

end RankOne
