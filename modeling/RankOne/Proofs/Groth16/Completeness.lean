import RankOne.Proofs.Groth16.Acceptance

/-!
# Completeness

Whatever the blinding, the proof that is assembled for a solution is accepted
for the solution's public inputs.
-/

namespace RankOne

variable {p : Nat} [TwoAdic p]

/-- What a solution of a compiled system comes with: it is sound, the counts of
the system add up, and there is an input for every public wire but the one
wire. -/
theorem Solver.solve_counts {settings : SchedulerSettings} {flat : FlatSystem p}
    {solver : Solver p} {publicInputs secretInputs : List (Fp p)}
    {solution : Solution p}
    (hCompile : CompiledSystem.compile settings flat = .ok solver.system)
    (hSolve : solver.solve publicInputs secretInputs = .ok solution) :
    solution.Sound solver publicInputs secretInputs ∧ solver.system.CountsFit ∧
      publicInputs.length = solver.system.layout.numPublic.toNat - 1 := by
  obtain ⟨resolution, hPlan⟩ := CompiledSystem.compile_planned hCompile
  obtain ⟨steps, hSolution, hFinished⟩ := solve_finished hPlan hSolve
  have hPublic := hFinished.length_public
  refine ⟨?_, hFinished.counts, by omega⟩
  rw [hSolution]
  exact hFinished.sound

/-- The system of a solution lies on the domain for its rows. -/
theorem Solver.solve_onDomain {settings : SchedulerSettings}
    {flat : FlatSystem p} {solver : Solver p}
    {publicInputs secretInputs : List (Fp p)} {solution : Solution p}
    {domain : EvaluationDomain p}
    (hCompile : CompiledSystem.compile settings flat = .ok solver.system)
    (hSolve : solver.solve publicInputs secretInputs = .ok solution)
    (hDomain : EvaluationDomain.ofSize p solver.system.numRows = .ok domain) :
    solution.Sound solver publicInputs secretInputs ∧
      solver.system.OnDomain domain ∧
      publicInputs.length = solver.system.layout.numPublic.toNat - 1 := by
  obtain ⟨resolution, hPlan⟩ := CompiledSystem.compile_planned hCompile
  obtain ⟨hSound, hFit, hLength⟩ := solve_counts hCompile hSolve
  exact ⟨hSound, hPlan.onDomain hFit hDomain, hLength⟩

variable [Fact p.Prime] [LawfulTwoAdic p]
  {G₁ G₂ GT : Type} [AddCommGroup G₁] [Module (Fp p) G₁] [AddCommGroup G₂]
  [Module (Fp p) G₂] [CommMonoid GT] [DecidableEq GT] [Pairing G₁ G₂ GT]

/-- On the domain for the rows the proofs of a solution are accepted. -/
theorem Solution.Sound.verdict_own {solver : Solver p}
    {publicInputs secretInputs : List (Fp p)} {solution : Solution p}
    {domain : EvaluationDomain p} {trapdoor : Trapdoor p}
    (hSound : solution.Sound solver publicInputs secretInputs)
    (hOn : solver.system.OnDomain domain)
    (hTrapdoor : trapdoor.Admissible domain) (hPair : Pairing.Bilinear G₁ G₂)
    (hLength : publicInputs.length = solver.system.layout.numPublic.toNat - 1)
    (prover : Prover) (g₁ : G₁) (g₂ : G₂) (blinding : Blinding p) :
    prover.Verdict
      (solver.system.keys g₁ g₂ trapdoor) solution domain publicInputs blinding
      true := by
  obtain ⟨quotient, hExact⟩ := hSound.exists_exact hOn
  have hVerdict :=
    prover.verdict_eq_decide hOn hPair hTrapdoor hExact.length_witness
      (hExact.quotient_eq prover.workers) hLength g₁ g₂ blinding
  have hExponents :=
    CompiledSystem.leftExponent_mul_rightExponent domain hOn.public_le
      hTrapdoor.delta_ne_zero solution.witness quotient blinding
  rw [hExact.residual_eq, Polynomial.eval_zero, add_zero,
    CompiledSystem.publicSum_eq_of_inputs domain hSound.one hSound.publicInputs]
      at hExponents
  rwa [hExponents, decide_eq_true rfl] at hVerdict

namespace Prover

/-- With keys of the system, the proofs of a solution are assembled for every
blinding, and they are accepted for the solution's public inputs. -/
theorem verdict_of_solve (prover : Prover) {settings : SchedulerSettings}
    {flat : FlatSystem p} {solver : Solver p}
    {publicInputs secretInputs : List (Fp p)} {solution : Solution p}
    {domain : EvaluationDomain p} {trapdoor : Trapdoor p} (g₁ : G₁) (g₂ : G₂)
    (hPair : Pairing.Bilinear G₁ G₂)
    (hCompile : CompiledSystem.compile settings flat = .ok solver.system)
    (hSolve : solver.solve publicInputs secretInputs = .ok solution)
    (hDomain : EvaluationDomain.ofSize p solver.system.numRows = .ok domain)
    (hTrapdoor : trapdoor.Admissible domain) (blinding : Blinding p) :
    prover.Verdict (solver.system.keys g₁ g₂ trapdoor) solution domain
      (solution.publicInputs solver.system.layout.numPublic.toNat)
        blinding true := by
  obtain ⟨hSound, hOn, hLength⟩ := Solver.solve_onDomain hCompile hSolve hDomain
  rw [hSound.publicInputs]
  exact hSound.verdict_own hOn hTrapdoor hPair hLength prover g₁ g₂ blinding

end Prover

/-! ## The square of five -/

/-- Both roots of the square are solutions, and three lies outside the
domain. -/
theorem squareSystem_solved :
    ∃ (solver : Solver 17) (solution solution' : Solution 17)
    (domain : EvaluationDomain 17),
    CompiledSystem.compile {} squareSystem = .ok solver.system ∧
      solver.solve [Fp.ofNat 17 8] [Fp.ofNat 17 5] = .ok solution ∧
      solver.solve [Fp.ofNat 17 8] [Fp.ofNat 17 12] = .ok solution' ∧
      EvaluationDomain.ofSize 17 solver.system.numRows = .ok domain ∧
      domain.vanishing (Fp.ofNat 17 3) ≠ 0 := by
  have hRun :
      ((CompiledSystem.compile {} squareSystem).toOption.any fun system =>
      ((Solver.ofSystem system).solve [Fp.ofNat 17 8]
        [Fp.ofNat 17 5]).toOption.any fun _ =>
        ((Solver.ofSystem system).solve [Fp.ofNat 17 8]
          [Fp.ofNat 17 12]).toOption.any fun _ =>
          (EvaluationDomain.ofSize 17 system.numRows).toOption.any fun domain =>
            decide (domain.vanishing (Fp.ofNat 17 3) ≠ 0)) = true := by
    decide +kernel
  simp only [Option.any_eq_true, toOption_eq_some, decide_eq_true_eq] at hRun
  obtain ⟨system, hCompile, solution, hSolve, solution', hSolve', domain,
    hDomain, hTau⟩ := hRun
  exact ⟨Solver.ofSystem system, solution, solution', domain, hCompile, hSolve,
    hSolve', hDomain, hTau⟩

/-- The proofs for the square of five are accepted. -/
theorem verdict_of_solve_square :
    ∃ (solver : Solver 17) (solution : Solution 17)
    (domain : EvaluationDomain 17),
    solver.solve [Fp.ofNat 17 8] [Fp.ofNat 17 5] = .ok solution ∧
      ∀ blinding, ({} : Prover).Verdict
        (solver.system.keys (1 : Fp 17) (1 : Fp 17) ⟨2, 3, 4, 5,
          Fp.ofNat 17 3⟩) solution domain
        (solution.publicInputs solver.system.layout.numPublic.toNat)
          blinding true := by
  obtain ⟨solver, solution, solution', domain, hCompile, hSolve, -,
    hDomain, hTau⟩ :=
    squareSystem_solved
  exact ⟨solver, solution, domain, hSolve, fun blinding =>
    Prover.verdict_of_solve
      {} 1 1 Pairing.bilinear_residues hCompile hSolve hDomain
      ⟨by decide, by decide, hTau⟩ blinding⟩

end RankOne
