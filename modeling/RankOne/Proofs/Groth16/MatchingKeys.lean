import RankOne.Proofs.Groth16.OtherDomains
import RankOne.Proofs.Groth16.Compatibility
import RankOne.Proofs.Constraint.Admission
import RankOne.Proofs.Constraint.Relation
import RankOne.Proofs.Witness.Failure

/-!
# Keys that match their system

The lengths that the assembler compares come from different places: those of a
key from the relation of a system, and those of a solution from its layout, its
rows and the domain that is chosen for them. They agree, since the counts of a
compiled system add up. Then nothing can go wrong between the keys and a proof
but what goes wrong without them: there is no domain, or no solution.
-/

namespace RankOne

variable {p : Nat} [TwoAdic p]

/-- A key counts what its system counts. -/
structure ProvingKey.Matches {G₁ G₂ : Type} (key : ProvingKey G₁ G₂)
    (system : CompiledSystem p) : Prop where
  numWires : key.numWires = system.layout.numWires
  numPublic : key.numPublic = system.layout.numPublic
  quotientPoints : ∀ domain,
    EvaluationDomain.ofSize p system.numRows = .ok domain →
    key.zG1.length = domain.size - 1

/-- How proving ends when all parts fit together. -/
inductive Prover.Ends {G₁ G₂ : Type} (solver : Solver p)
    (publicInputs secretInputs : List (Fp p)) :
    Outcome ProverError (Proof G₁ G₂) → Prop where
  | noDomain {cause : DomainError}
      (h : EvaluationDomain.ofSize p solver.system.numRows = .error cause) :
      Ends solver publicInputs secretInputs (Outcome.report (.domain cause))
  | unsolved {cause : SolveError}
      (h : solver.solve publicInputs secretInputs = .error (.reported cause)) :
      Ends solver publicInputs secretInputs (Outcome.report (.solving cause))
  | proved {solution : Solution p} {proof : Proof G₁ G₂}
      (h : solver.solve publicInputs secretInputs = .ok solution) :
      Ends solver publicInputs secretInputs (.ok proof)

/-- Where there are a domain and a solution, proving ends with a proof. -/
private theorem Prover.Ends.exists_proof {G₁ G₂ : Type} {solver : Solver p}
    {publicInputs secretInputs : List (Fp p)}
    {result : Outcome ProverError (Proof G₁ G₂)}
    (h : Ends solver publicInputs secretInputs result)
    {domain : EvaluationDomain p}
    (hDomain : EvaluationDomain.ofSize p solver.system.numRows = .ok domain)
    {solution : Solution p}
    (hSolve : solver.solve publicInputs secretInputs = .ok solution) :
    ∃ proof, result = .ok proof := by
  cases h with
  | noDomain hNone =>
      rw [hDomain] at hNone
      cases hNone
  | unsolved hFails =>
      rw [hSolve] at hFails
      cases hFails
  | proved _ => exact ⟨_, rfl⟩

variable [Fact p.Prime] {G₁ G₂ : Type} [AddCommGroup G₁] [Module (Fp p) G₁]
  [AddCommGroup G₂] [Module (Fp p) G₂]

/-! ## Counts -/

namespace CompiledSystem

variable {system : CompiledSystem p}

omit [TwoAdic p] [Fact p.Prime] in
/-- No count wraps around when the counts of the layout add up to a word and the
constraints are no more than memory can address. -/
private theorem countsFit_of_fits (hWellFormed : system.WellFormed)
    (hFits : system.layout.Fits) (hSize : system.constraints.size < 2 ^ 63) :
    system.countsFit = true := by
  refine hWellFormed.countsFit ?_ hSize
  rw [hFits.numWires_eq, hFits.numInputs_eq]
  exact Nat.le_add_right _ _

/-- Keys have the numbers of wires of their system when the public wires are
wires. -/
private theorem numWires_keys (hPos : 0 < system.layout.numPublic.toNat)
    (hPublic : system.layout.numPublic.toNat ≤ system.layout.numWires)
    (trapdoor : Trapdoor p) (g₁ : G₁) (g₂ : G₂) :
    (system.keys g₁ g₂ trapdoor).proving.numWires = system.layout.numWires ∧
      (system.keys g₁ g₂ trapdoor).proving.numPublic =
        system.layout.numPublic := by
  unfold ProvingKey.numWires
  rw [← UInt64.toNat_inj, length_aG1_keys, numPublic_keys_eq]
  unfold witnessCount inputCount
  omega

/-- The keys of a system whose counts add up match it. -/
theorem matches_keys [LawfulTwoAdic p] {resolution : Resolution}
    (hPlan : system.Planned resolution) (hFit : system.CountsFit)
    (trapdoor : Trapdoor p) (g₁ : G₁) (g₂ : G₂) :
    (system.keys g₁ g₂ trapdoor).proving.Matches system := by
  obtain ⟨hWires, hPublic⟩ :=
    numWires_keys hPlan.wellFormed.public_pos hFit.public_le trapdoor g₁ g₂
  refine ⟨hWires, hPublic, fun domain hDomain => ?_⟩
  have hOn := hPlan.onDomain hFit hDomain
  rw [length_zG1_keys, hOn.logSize_eq]
  rfl

end CompiledSystem

/-! ## Proving -/

namespace Prover

variable [LawfulTwoAdic p] {settings : SchedulerSettings} {flat : FlatSystem p}
  {solver : Solver p} {σ : Type} [WordSource σ]

/-- With keys of the system, the checks of the key pass, and every solution
becomes a proof. -/
theorem prove_keys (prover : Prover) {trapdoor : Trapdoor p}
    (hCompile : CompiledSystem.compile settings flat = .ok solver.system)
    (hSize : solver.system.constraints.size < 2 ^ 63)
    (hTrapdoor : trapdoor.Usable solver.system) (g₁ : G₁) (g₂ : G₂)
    (publicInputs secretInputs : List (Fp p)) :
    Draw.Always σ
      (prover.prove solver (solver.system.keys g₁ g₂ trapdoor).proving
        publicInputs secretInputs)
      (Ends solver publicInputs secretInputs) := by
  obtain ⟨resolution, hPlan⟩ := CompiledSystem.compile_planned hCompile
  obtain ⟨assembler, hKey⟩ :=
    CompiledSystem.exists_assembler solver.system trapdoor g₁ g₂
  have hDigest : checkKey (solver.system.keys g₁ g₂ trapdoor).proving
      solver.system = .ok () := checkKey_eq_ok.mpr rfl
  unfold prove prepare
  rw [hDigest, hKey]
  cases hDomain : EvaluationDomain.ofSize p solver.system.numRows with
  | error cause => exact .pure (.noDomain hDomain)
  | ok domain =>
      cases hSolve : solver.solve publicInputs secretInputs with
      | error failure =>
          cases failure with
          | reported cause => exact .pure (.unsolved hSolve)
          | fault cause =>
              -- The solver has no fault but that counts do not add up.
              have hWrapped := (Solver.solve_eq_fault hPlan hSolve).1
              have hCounts := CompiledSystem.countsFit_of_fits hPlan.wellFormed
                (CompiledSystem.fits_of_compile hCompile) hSize
              rw [hWrapped] at hCounts
              cases hCounts
      | ok solution =>
          -- The rows of the system are those of the keys.
          obtain ⟨hSound, hOn, -⟩ :=
            Solver.solve_onDomain hCompile hSolve hDomain
          obtain ⟨quotient, hExact⟩ := hSound.exists_exact hOn
          have hProof := CompiledSystem.assemble_keys hOn
            (hTrapdoor.admissible hOn).outside hKey
            hExact.length_witness (hExact.quotient_eq prover.workers)
          refine .bind_any fun r => .bind_any fun s => .pure ?_
          rw [hProof ⟨r, s⟩]
          exact .proved hSolve

/-- Whatever keys are drawn for a compiled system, their lists fit together and
they match it. When a proof is asked for with them, nothing can be missing but a
domain and a solution: neither the key, nor the numbers of wire values and
coefficients, nor the rows are ever refused, and nothing is abandoned. The
constraints are no more than memory can address. -/
theorem matching_keys (σ σ' : Type) [WordSource σ] [WordSource σ']
    [Drawable G₁] [Drawable G₂] (prover prover' : Prover)
    (hCompile : CompiledSystem.compile settings flat = .ok solver.system)
    (hSize : solver.system.constraints.size < 2 ^ 63) :
    Draw.Always σ (prover.generateKeys solver.system)
      fun outcome : Except ProverError (KeyPair G₁ G₂) =>
        ∀ keys, outcome = .ok keys →
          keys.proving.checkShape = .ok () ∧
          keys.proving.Matches solver.system ∧
          ∀ publicInputs secretInputs : List (Fp p),
            Draw.Always σ'
              (prover'.prove solver keys.proving publicInputs secretInputs)
              (Ends solver publicInputs secretInputs) := by
  obtain ⟨resolution, hPlan⟩ := CompiledSystem.compile_planned hCompile
  have hCounts := CompiledSystem.countsFit_of_fits hPlan.wellFormed
    (CompiledSystem.fits_of_compile hCompile) hSize
  unfold generateKeys
  refine .bind (Setup.random_usable solver.system) fun made hMade =>
    .pure fun keys hKeys => ?_
  cases made with
  | error cause => cases hKeys
  | ok keys' =>
      injection hKeys with hKeys
      subst hKeys
      obtain ⟨g₁, g₂, trapdoor, hTrapdoor, hSame⟩ := hMade keys' rfl
      subst hSame
      exact ⟨CompiledSystem.checkShape_keys solver.system trapdoor g₁ g₂,
        CompiledSystem.matches_keys hPlan (ValidSystem.countsFit_spec hCounts)
          trapdoor g₁ g₂,
        prover'.prove_keys hCompile hSize hTrapdoor g₁ g₂⟩

end Prover

/-! ## Keys for the square of five -/

/-- Keys for the square roots are drawn that match the system, and with them the
square of five is always proved. -/
theorem matching_keys_square : ∃ (solver : Solver 17)
    (keys : KeyPair (Fp 17) (Fp 17)),
    CompiledSystem.compile {} squareSystem = .ok solver.system ∧
      solver.system.constraints.size < 2 ^ 63 ∧
      ((({} : Prover).generateKeys solver.system).run
        (SplitMix.mk 5)).1 = .ok keys ∧
      keys.proving.Matches solver.system ∧
      Draw.Always SplitMix
        (({} : Prover).prove solver keys.proving [Fp.ofNat 17 8]
          [Fp.ofNat 17 5])
        fun result => ∃ proof, result = .ok proof := by
  have hRun :
      ((CompiledSystem.compile {} squareSystem).toOption.any fun system =>
      ((({} : Prover).generateKeys system).run
        (SplitMix.mk 5)).1.toOption.any fun (_ : KeyPair (Fp 17) (Fp 17)) =>
          ((Solver.ofSystem system).solve [Fp.ofNat 17 8]
            [Fp.ofNat 17 5]).toOption.any fun _ =>
              (EvaluationDomain.ofSize 17 system.numRows).toOption.any fun _ =>
                decide (system.constraints.size < 2 ^ 63)) = true := by
    decide +kernel
  simp only [Option.any_eq_true, toOption_eq_some, decide_eq_true_eq] at hRun
  obtain ⟨system, hCompile, keys, hKeys, solution, hSolve, domain, hDomain,
    hSize⟩ := hRun
  have hSystem : CompiledSystem.compile {} squareSystem =
      .ok (Solver.ofSystem system).system := hCompile
  obtain ⟨-, hMatches, hEnds⟩ := Prover.matching_keys SplitMix SplitMix {} {}
    hSystem hSize (SplitMix.mk 5) keys hKeys
  exact ⟨Solver.ofSystem system, keys, hCompile, hSize, hKeys, hMatches,
    fun source => (hEnds _ _ source).exists_proof hDomain hSolve⟩

end RankOne
