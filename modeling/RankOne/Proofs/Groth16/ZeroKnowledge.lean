import RankOne.Proofs.Groth16.Completeness

/-!
# Zero knowledge

The blinding hides which solution a proof was assembled for. For two solutions
with the same public inputs, each proof of the one is a proof of the other for
exactly one blinding: the blinding scalars shift by the difference of the left
and of the right values, divided by `δ`, and the closing point follows, because
the verification equation determines it from the first two points.
-/

namespace RankOne

variable {p : Nat} [Fact p.Prime]

namespace CompiledSystem

variable {system : CompiledSystem p} {domain : EvaluationDomain p}
  {trapdoor : Trapdoor p} {witness witness' quotient quotient' : List (Fp p)}
  {blinding blinding' : Blinding p}

/-- The blinding under which the second witness has the first two factors that
the first witness has under the given one. -/
noncomputable def rebind (system : CompiledSystem p)
    (domain : EvaluationDomain p) (trapdoor : Trapdoor p)
    (witness witness' : List (Fp p)) (blinding : Blinding p) : Blinding p where
  r := blinding.r + ((system.leftSum domain witness).eval trapdoor.tau -
    (system.leftSum domain witness').eval trapdoor.tau) * trapdoor.delta⁻¹
  s := blinding.s + ((system.rightSum domain witness).eval trapdoor.tau -
    (system.rightSum domain witness').eval trapdoor.tau) * trapdoor.delta⁻¹

private theorem leftExponent_rebind (system : CompiledSystem p)
    (domain : EvaluationDomain p) (witness witness' : List (Fp p))
    (blinding : Blinding p) (hDelta : trapdoor.delta ≠ 0) :
    system.leftExponent domain trapdoor witness'
        (system.rebind domain trapdoor witness witness' blinding) =
      system.leftExponent domain trapdoor witness blinding := by
  have hInv : trapdoor.delta⁻¹ * trapdoor.delta = 1 := inv_mul_cancel₀ hDelta
  unfold leftExponent rebind
  linear_combination ((system.leftSum domain witness).eval trapdoor.tau -
    (system.leftSum domain witness').eval trapdoor.tau) * hInv

private theorem rightExponent_rebind (system : CompiledSystem p)
    (domain : EvaluationDomain p) (witness witness' : List (Fp p))
    (blinding : Blinding p) (hDelta : trapdoor.delta ≠ 0) :
    system.rightExponent domain trapdoor witness'
        (system.rebind domain trapdoor witness witness' blinding) =
      system.rightExponent domain trapdoor witness blinding := by
  have hInv : trapdoor.delta⁻¹ * trapdoor.delta = 1 := inv_mul_cancel₀ hDelta
  unfold rightExponent rebind
  linear_combination ((system.rightSum domain witness).eval trapdoor.tau -
    (system.rightSum domain witness').eval trapdoor.tau) * hInv

section Exponents

variable (hDelta : trapdoor.delta ≠ 0)
include hDelta

/-- The left factor determines the scalar that blinds it. -/
private theorem leftExponent_injective
    (h : system.leftExponent domain trapdoor witness blinding =
      system.leftExponent domain trapdoor witness blinding') :
    blinding.r = blinding'.r := by
  unfold leftExponent at h
  exact mul_right_cancel₀ hDelta (add_left_cancel (add_right_cancel h))

/-- The right factor determines the scalar that blinds it. -/
private theorem rightExponent_injective
    (h : system.rightExponent domain trapdoor witness blinding =
      system.rightExponent domain trapdoor witness blinding') :
    blinding.s = blinding'.s := by
  unfold rightExponent at h
  exact mul_right_cancel₀ hDelta (add_left_cancel (add_right_cancel h))

/-- Without a residual the first two factors and the public wires determine the
closing factor. -/
private theorem closingExponent_eq
    (hPublic : system.layout.numPublic.toNat ≤ system.layout.numWires)
    (hResidual : system.residual domain witness quotient = 0)
    (hResidual' : system.residual domain witness' quotient' = 0)
    (hInputs : system.publicSum domain trapdoor witness =
      system.publicSum domain trapdoor witness')
    (hLeft : system.leftExponent domain trapdoor witness blinding =
      system.leftExponent domain trapdoor witness' blinding')
    (hRight : system.rightExponent domain trapdoor witness blinding =
      system.rightExponent domain trapdoor witness' blinding') :
    system.closingExponent domain trapdoor witness quotient blinding =
      system.closingExponent domain trapdoor witness' quotient' blinding' := by
  have hFactors :=
    leftExponent_mul_rightExponent domain hPublic hDelta witness quotient
      blinding
  have hFactors' :=
    leftExponent_mul_rightExponent domain hPublic hDelta witness'
      quotient' blinding'
  rw [hResidual, Polynomial.eval_zero, add_zero] at hFactors
  rw [hResidual', Polynomial.eval_zero, add_zero, ← hLeft, ← hRight, hFactors,
    hInputs] at hFactors'
  exact mul_right_cancel₀ hDelta (add_left_cancel hFactors')

end Exponents

section Proofs

variable {G₁ G₂ : Type} [AddCommGroup G₁] [Module (Fp p) G₁] [AddCommGroup G₂]
  [Module (Fp p) G₂] {g₁ : G₁} {g₂ : G₂} (hFirst : g₁ ≠ 0) (hSecond : g₂ ≠ 0)
include hFirst hSecond

/-- Proofs are equal when their first two factors and their closing factors
are. -/
private theorem proofOf_eq_iff :
    system.proofOf domain trapdoor g₁ g₂ witness quotient blinding =
        system.proofOf domain trapdoor g₁ g₂ witness' quotient' blinding' ↔
      system.leftExponent domain trapdoor witness blinding =
          system.leftExponent domain trapdoor witness' blinding' ∧
        system.rightExponent domain trapdoor witness blinding =
          system.rightExponent domain trapdoor witness' blinding' ∧
        system.closingExponent domain trapdoor witness quotient blinding =
          system.closingExponent domain trapdoor witness' quotient'
            blinding' := by
  unfold proofOf
  rw [Proof.mk.injEq, (smul_left_injective (Fp p) hFirst).eq_iff,
    (smul_left_injective (Fp p) hSecond).eq_iff,
      (smul_left_injective (Fp p) hFirst).eq_iff]

/-- Every proof for the first witness is a proof for the second one, under one
blinding. -/
theorem existsUnique_blinding
    (hPublic : system.layout.numPublic.toNat ≤ system.layout.numWires)
    (hDelta : trapdoor.delta ≠ 0)
    (hResidual : system.residual domain witness quotient = 0)
    (hResidual' : system.residual domain witness' quotient' = 0)
    (hInputs : system.publicSum domain trapdoor witness =
      system.publicSum domain trapdoor witness') (blinding : Blinding p) :
    ∃! blinding',
      system.proofOf domain trapdoor g₁ g₂ witness' quotient' blinding' =
      system.proofOf domain trapdoor g₁ g₂ witness quotient blinding := by
  have hLeft :=
    leftExponent_rebind system domain witness witness' blinding hDelta
  have hRight :=
    rightExponent_rebind system domain witness witness' blinding hDelta
  refine ⟨system.rebind domain trapdoor witness witness' blinding, ?_, ?_⟩
  · exact (proofOf_eq_iff hFirst hSecond).mpr ⟨hLeft, hRight,
      closingExponent_eq hDelta hPublic hResidual' hResidual hInputs.symm
        hLeft hRight⟩
  · intro other hOther
    obtain ⟨hLeft', hRight', -⟩ := (proofOf_eq_iff hFirst hSecond).mp hOther
    have hR := leftExponent_injective hDelta (hLeft'.trans hLeft.symm)
    have hS := rightExponent_injective hDelta (hRight'.trans hRight.symm)
    cases other
    subst hR hS
    rfl

end Proofs

end CompiledSystem

/-! ## Solutions -/

/-- The proofs that can be assembled for a solution. -/
def Assembler.proofs {G₁ G₂ : Type} [Zero G₁] [Add G₁] [Sub G₁] [SMul (Fp p) G₁]
    [Zero G₂] [Add G₂] [SMul (Fp p) G₂] (assembler : Assembler G₁ G₂)
    (workers : Nat) (solution : Solution p) (domain : EvaluationDomain p) :
    Set (Proof G₁ G₂) :=
  {proof | ∃ blinding,
    assembler.assemble workers solution domain blinding = .ok proof}

/-- A solution has the proofs of another one when every blinding of the other
has a counterpart. -/
private theorem Assembler.proofs_subset {G₁ G₂ : Type} [Zero G₁] [Add G₁]
    [Sub G₁] [SMul (Fp p) G₁] [Zero G₂] [Add G₂] [SMul (Fp p) G₂]
    {assembler : Assembler G₁ G₂} {workers : Nat}
    {solution solution' : Solution p} {domain : EvaluationDomain p}
    (h : ∀ blinding, ∃ proof,
      assembler.assemble workers solution domain blinding = .ok proof ∧
      ∃! blinding',
      assembler.assemble workers solution' domain blinding' = .ok proof) :
    assembler.proofs workers solution domain ⊆
      assembler.proofs workers solution' domain := by
  rintro proof ⟨blinding, hProof⟩
  obtain ⟨proof', hProof', blinding', hOther, -⟩ := h blinding
  rw [hProof] at hProof'
  injection hProof' with hProof'
  exact ⟨blinding', hProof' ▸ hOther⟩

variable [TwoAdic p] [LawfulTwoAdic p] {G₁ G₂ : Type} [AddCommGroup G₁]
  [Module (Fp p) G₁] [AddCommGroup G₂] [Module (Fp p) G₂]

/-- Every proof for the first solution is a proof for the second one, under one
blinding. -/
private theorem CompiledSystem.existsUnique_assembled
    {system : CompiledSystem p} {domain : EvaluationDomain p}
    {trapdoor : Trapdoor p} (hOn : system.OnDomain domain)
    (hDelta : trapdoor.delta ≠ 0) (hTau : domain.vanishing trapdoor.tau ≠ 0)
    {g₁ : G₁} {g₂ : G₂} (hFirst : g₁ ≠ 0) (hSecond : g₂ ≠ 0)
    {assembler : Assembler G₁ G₂}
    (hKey : Assembler.ofKey (system.keys g₁ g₂ trapdoor).proving =
      .ok assembler) {solution solution' : Solution p}
    {quotient quotient' : List (Fp p)}
    (hExact : system.Exact domain solution quotient)
    (hExact' : system.Exact domain solution' quotient')
    (hInputs : system.publicSum domain trapdoor solution.witness =
      system.publicSum domain trapdoor solution'.witness) (workers : Nat)
    (blinding : Blinding p) :
    ∃ proof, assembler.assemble workers solution domain blinding = .ok proof ∧
      ∃! blinding',
        assembler.assemble workers solution' domain blinding' = .ok proof := by
  have hAssemble := assemble_keys hOn hTau hKey hExact.length_witness
    (hExact.quotient_eq workers)
  have hAssemble' := assemble_keys hOn hTau hKey hExact'.length_witness
    (hExact'.quotient_eq workers)
  obtain ⟨blinding', hSame, hUnique⟩ :=
    existsUnique_blinding hFirst hSecond hOn.public_le
      hDelta hExact.residual_eq hExact'.residual_eq hInputs blinding
  refine ⟨_, hAssemble blinding, blinding', ?_, ?_⟩
  · exact (hAssemble' blinding').trans (congrArg _ hSame)
  · intro other hOther
    apply hUnique
    have hProof := (hAssemble' other).symm.trans hOther
    injection hProof

/-- For two solutions of a system with the same public inputs, whatever their
secret inputs and the functions of the custom hints are, each proof of the first
is a proof of the second under exactly one blinding. So they have the same
proofs. Different scalars blind the points of one solution differently. -/
theorem Assembler.hides_secrets {settings : SchedulerSettings}
    {flat : FlatSystem p} {solver solver' : Solver p}
    {publicInputs secretInputs secretInputs' : List (Fp p)}
    {solution solution' : Solution p} {domain : EvaluationDomain p}
    {trapdoor : Trapdoor p} {g₁ : G₁} {g₂ : G₂} (workers : Nat)
    (hFirst : g₁ ≠ 0) (hSecond : g₂ ≠ 0)
    (hCompile : CompiledSystem.compile settings flat = .ok solver.system)
    (hSystem : solver'.system = solver.system)
    (hSolve : solver.solve publicInputs secretInputs = .ok solution)
    (hSolve' : solver'.solve publicInputs secretInputs' = .ok solution')
    (hDomain : EvaluationDomain.ofSize p solver.system.numRows = .ok domain)
    (hDelta : trapdoor.delta ≠ 0) (hTau : domain.vanishing trapdoor.tau ≠ 0) :
    ∃ assembler, Assembler.ofKey (solver.system.keys g₁ g₂ trapdoor).proving =
      .ok assembler ∧
      (∀ blinding, ∃ proof,
        assembler.assemble workers solution domain blinding = .ok proof ∧
        ∃! blinding',
          assembler.assemble workers solution' domain blinding' = .ok proof) ∧
      assembler.proofs workers solution domain =
        assembler.proofs workers solution' domain ∧
      ∀ (blinding blinding' : Blinding p) (proof proof' : Proof G₁ G₂),
        assembler.assemble workers solution domain blinding = .ok proof →
        assembler.assemble workers solution domain blinding' = .ok proof' →
        (blinding.r ≠ blinding'.r → proof.ar ≠ proof'.ar) ∧
          (blinding.s ≠ blinding'.s → proof.bs ≠ proof'.bs) := by
  obtain ⟨hSound, hOn, -⟩ := Solver.solve_onDomain hCompile hSolve hDomain
  obtain ⟨hSound', hOn', -⟩ :=
    Solver.solve_onDomain (hSystem ▸ hCompile) hSolve' (hSystem ▸ hDomain)
  obtain ⟨quotient, hExact⟩ := hSound.exists_exact hOn
  obtain ⟨quotient', hExact'⟩ := hSound'.exists_exact hOn'
  have hInputs' := hSound'.publicInputs
  rw [hSystem] at hExact' hInputs'
  have hInputs : solver.system.publicSum domain trapdoor solution.witness =
      solver.system.publicSum domain trapdoor solution'.witness := by
    rw [CompiledSystem.publicSum_eq_of_inputs
      domain hSound.one hSound.publicInputs,
      CompiledSystem.publicSum_eq_of_inputs domain hSound'.one hInputs']
  obtain ⟨assembler, hKey⟩ :=
    CompiledSystem.exists_assembler solver.system trapdoor g₁ g₂
  have hForward := CompiledSystem.existsUnique_assembled hOn hDelta hTau hFirst
    hSecond hKey hExact hExact' hInputs workers
  have hBackward :=
    CompiledSystem.existsUnique_assembled hOn hDelta hTau hFirst hSecond hKey
      hExact' hExact hInputs.symm workers
  refine ⟨assembler, hKey, hForward,
    Set.Subset.antisymm (proofs_subset hForward) (proofs_subset hBackward), ?_⟩
  intro blinding blinding' proof proof' hProof hProof'
  rw [CompiledSystem.assemble_keys hOn hTau hKey hExact.length_witness
    (hExact.quotient_eq workers)] at hProof hProof'
  injection hProof with hProof
  injection hProof' with hProof'
  subst hProof hProof'
  constructor
  · intro hDifferent hSame
    exact hDifferent (CompiledSystem.leftExponent_injective hDelta
      (smul_left_injective (Fp p) hFirst hSame))
  · intro hDifferent hSame
    exact hDifferent (CompiledSystem.rightExponent_injective hDelta
      (smul_left_injective (Fp p) hSecond hSame))

/-- A proof does not tell which root of eight it was assembled for. -/
theorem hides_secrets_square :
    ∃ (solver : Solver 17) (solution solution' : Solution 17)
    (domain : EvaluationDomain 17) (assembler : Assembler (Fp 17) (Fp 17)),
    solver.solve [Fp.ofNat 17 8] [Fp.ofNat 17 5] = .ok solution ∧
      solver.solve [Fp.ofNat 17 8] [Fp.ofNat 17 12] = .ok solution' ∧
      Assembler.ofKey (solver.system.keys (1 : Fp 17) (1 : Fp 17)
        ⟨2, 3, 4, 5, Fp.ofNat 17 3⟩).proving = .ok assembler ∧
      (∀ blinding, ∃ proof,
        assembler.assemble 8 solution domain blinding = .ok proof ∧
        ∃! blinding',
          assembler.assemble 8 solution' domain blinding' = .ok proof) ∧
      assembler.proofs 8 solution domain =
        assembler.proofs 8 solution' domain := by
  obtain ⟨solver, solution, solution', domain, hCompile, hSolve, hSolve',
    hDomain, hTau⟩ :=
    squareSystem_solved
  have hOne : (1 : Fp 17) ≠ 0 := by decide
  have hDelta : (Trapdoor.mk 2 3 4 5 (Fp.ofNat 17 3)).delta ≠ 0 := by decide
  obtain ⟨assembler, hKey, hBlinding, hProofs, -⟩ :=
    Assembler.hides_secrets 8 hOne hOne hCompile rfl
      hSolve hSolve' hDomain hDelta hTau
  exact ⟨solver, solution, solution', domain, assembler, hSolve, hSolve', hKey,
    hBlinding, hProofs⟩

end RankOne
