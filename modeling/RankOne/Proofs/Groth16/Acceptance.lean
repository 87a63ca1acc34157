import RankOne.Groth16.Prover
import RankOne.Proofs.Groth16.Residual

/-!
# When a proof is accepted

Verification comes to a verdict on every proof that is assembled, be the wire
values and rows those of a solution or not. The verdict does not depend on the
blinding: the proof is accepted exactly when the residual at the secret point
makes up for the difference between the inputs and the values of the public
wires. For right inputs and wire values that violate a constraint, this happens
for at most `2n - 2` secret points.
-/

namespace RankOne

open Polynomial

variable {p : Nat} [Fact p.Prime]

/-- Secrets that keys are made from: the divisors are not zero, and the point
lies outside the domain. -/
structure Trapdoor.Admissible (trapdoor : Trapdoor p)
    (domain : EvaluationDomain p) : Prop where
  gamma_ne_zero : trapdoor.gamma ≠ 0
  delta_ne_zero : trapdoor.delta ≠ 0
  outside : domain.vanishing trapdoor.tau ≠ 0

namespace CompiledSystem

/-- Some constraint does not hold for the given wire values. -/
def Violated (system : CompiledSystem p) (wires : List (Fp p)) : Prop :=
  ∃ (number : Nat) (c : Constraint) (left right output : Fp p),
    system.constraints[number]? = some c ∧
      system.evaluate wires.toArray c.left = .ok left ∧
      system.evaluate wires.toArray c.right = .ok right ∧
      system.evaluate wires.toArray c.output = .ok output ∧
        left * right ≠ output

variable {system : CompiledSystem p} {domain : EvaluationDomain p}

omit [Fact p.Prime] in
/-- A system whose counts add up lies on the domain for its rows. -/
theorem Planned.onDomain [TwoAdic p] {resolution : Resolution}
    (hPlan : system.Planned resolution) (hFit : system.CountsFit)
    (hDomain : EvaluationDomain.ofSize p system.numRows = .ok domain) :
    system.OnDomain domain where
  wellFormed := hPlan.wellFormed
  public_le := hFit.public_le
  numRows_eq := hFit.numRows_eq
  ofSize_eq := hDomain

/-- When wire values, a domain and inputs that are sized by the counts of a
system fit its keys, the counts add up: the size of the keys never wraps
around. -/
private theorem OnDomain.of_keys [TwoAdic p] [LawfulTwoAdic p] {G₁ G₂ : Type}
    [AddCommGroup G₁] [Module (Fp p) G₁] [AddCommGroup G₂] [Module (Fp p) G₂]
    {g₁ : G₁} {g₂ : G₂} {trapdoor : Trapdoor p}
    (hWellFormed : system.WellFormed)
    (hDomain : EvaluationDomain.ofSize p system.numRows = .ok domain)
    (hWires : system.layout.numWires =
      (system.keys g₁ g₂ trapdoor).proving.aG1.length)
    (hPoints : (system.keys g₁ g₂ trapdoor).proving.zG1.length ≤ domain.size)
    (hInputs : system.layout.numPublic.toNat - 1 =
      (system.keys g₁ g₂ trapdoor).verifying.gammaAbcG1.length - 1) :
    system.OnDomain domain := by
  have hPos := hWellFormed.public_pos
  rw [length_aG1_keys] at hWires
  rw [length_gammaAbcG1_keys] at hInputs
  have hPublic : system.layout.numPublic.toNat ≤ system.layout.numWires := by
    unfold witnessCount inputCount at hWires
    unfold inputCount at hInputs
    omega
  rw [length_zG1_keys, logSizeOf_relation hPos hPublic, EvaluationDomain.size,
    (EvaluationDomain.ofSize_lawful hDomain).2] at hPoints
  have hWord : system.numRows =
      (system.numConstraints + system.layout.numPublic.toNat) % 2 ^ 64 := by
    show (system.numConstraints.toUInt64 + system.layout.numPublic).toNat = _
    rw [UInt64.toNat_add, Nat.toUInt64_eq, UInt64.toNat_ofNat', Nat.mod_add_mod]
  have hEnough :=
    le_two_pow_ceilLog2 (system.numConstraints + system.layout.numPublic.toNat)
  have hFew := two_pow_ceilLog2_le system.numRows
  exact ⟨hWellFormed, hPublic, by omega, hDomain⟩

end CompiledSystem

variable {G₁ G₂ GT : Type} [AddCommGroup G₁] [Module (Fp p) G₁]
  [AddCommGroup G₂] [Module (Fp p) G₂] [CommMonoid GT] [DecidableEq GT]
  [Pairing G₁ G₂ GT]

namespace Prover

/-- The proof for a solution is assembled and verified against inputs, and this
is the verdict. -/
def Verdict (prover : Prover) (keys : KeyPair G₁ G₂) (solution : Solution p)
    (domain : EvaluationDomain p) (inputs : List (Fp p)) (blinding : Blinding p)
    (verdict : Bool) : Prop :=
  ∃ assembler proof, Assembler.ofKey keys.proving = .ok assembler ∧
    assembler.assemble prover.workers solution domain blinding = .ok proof ∧
    prover.verify keys.verifying proof ⟨inputs⟩ = .ok verdict

/-- There is one verdict. -/
private theorem Verdict.unique {prover : Prover} {keys : KeyPair G₁ G₂}
    {solution : Solution p} {domain : EvaluationDomain p} {inputs : List (Fp p)}
    {blinding : Blinding p} {verdict verdict' : Bool}
    (h : prover.Verdict keys solution domain inputs blinding verdict)
    (h' : prover.Verdict keys solution domain inputs blinding verdict') :
    verdict = verdict' := by
  obtain ⟨assembler, proof, hKey, hProof, hVerdict⟩ := h
  obtain ⟨assembler', proof', hKey', hProof', hVerdict'⟩ := h'
  rw [hKey] at hKey'
  injection hKey' with hKey'
  subst hKey'
  rw [hProof] at hProof'
  injection hProof' with hProof'
  subst hProof'
  rw [hVerdict] at hVerdict'
  injection hVerdict'

variable [TwoAdic p] [LawfulTwoAdic p] {system : CompiledSystem p}
  {domain : EvaluationDomain p} {solution : Solution p}
  {quotient inputs : List (Fp p)} {trapdoor : Trapdoor p}

/-- A verdict is only come to when the counts of the system add up. -/
private theorem Verdict.onDomain {prover : Prover} {g₁ : G₁} {g₂ : G₂}
    {blinding : Blinding p} {verdict : Bool} (hWellFormed : system.WellFormed)
    (hDomain : EvaluationDomain.ofSize p system.numRows = .ok domain)
    (hWitness : solution.witness.length = system.layout.numWires)
    (hInputs : inputs.length = system.layout.numPublic.toNat - 1)
    (h : prover.Verdict
      (system.keys g₁ g₂ trapdoor) solution domain inputs blinding verdict) :
    system.OnDomain domain := by
  obtain ⟨assembler, proof, hKey, hProof, hVerdict⟩ := h
  unfold Assembler.assemble at hProof
  dsimp only at hProof
  rw [Assembler.key_eq hKey] at hProof
  split at hProof
  · cases hProof
  next hWires =>
  split at hProof
  · cases hProof
  next hPoints =>
  unfold verify VerifyingKey.verify at hVerdict
  split at hVerdict
  · cases hVerdict
  next hCount =>
  exact CompiledSystem.OnDomain.of_keys hWellFormed hDomain
    (hWitness.symm.trans (not_not.mp hWires)) (Nat.le_of_not_lt hPoints)
    (hInputs.symm.trans (not_not.mp hCount))

section OtherDomain

variable (prover : Prover) (hOn : system.OnDomain domain)
  (hPair : Pairing.Bilinear G₁ G₂) (hTrapdoor : trapdoor.Admissible domain)
  (hWitness : solution.witness.length = system.layout.numWires)
  {other : EvaluationDomain p} (hLawful : other.Lawful)
  (hSize : domain.size ≤ other.size)
  (hQuotient : other.quotient prover.workers solution.a solution.b solution.c =
    .ok quotient)
  (hInputs : inputs.length = system.layout.numPublic.toNat - 1)
include hOn hPair hTrapdoor hWitness hLawful hSize hQuotient hInputs

/-- The verdict compares the factors of the verification equation. The domain of
the quotient need not be that of the keys, if it is not smaller. -/
theorem verdict_eq_decide_on (g₁ : G₁) (g₂ : G₂) (blinding : Blinding p) :
    prover.Verdict (system.keys g₁ g₂ trapdoor) solution other inputs blinding
      (decide (Pairing.pair
        ((system.leftExponent domain trapdoor solution.witness blinding *
          system.rightExponent domain trapdoor solution.witness blinding) •
            g₁) g₂ =
        Pairing.pair ((trapdoor.alpha * trapdoor.beta +
          system.publicSum domain trapdoor (1 :: inputs) +
          system.closingExponent domain trapdoor solution.witness
            quotient blinding * trapdoor.delta) • g₁) g₂)) := by
  obtain ⟨assembler, hAssembler⟩ :=
    CompiledSystem.exists_assembler system trapdoor g₁ g₂
  refine ⟨assembler, _, hAssembler,
    CompiledSystem.assemble_keys_on hOn hTrapdoor.outside hAssembler
    hLawful hSize hWitness hQuotient blinding, ?_⟩
  unfold verify
  rw [CompiledSystem.verify_keys hOn hTrapdoor.outside g₁ g₂ _ hInputs,
    CompiledSystem.accepts_eq_decide hOn hTrapdoor.outside hPair
      hTrapdoor.gamma_ne_zero]
  rfl

/-- For generators that do not pair to one, the proof is accepted when the
residual makes up for the difference between the inputs and the values of the
public wires. -/
theorem verdict_eq_decide_residual_on {g₁ : G₁} {g₂ : G₂}
    (hGenerators : Pairing.pair g₁ g₂ ≠ 1) (blinding : Blinding p) :
    prover.Verdict (system.keys g₁ g₂ trapdoor) solution other inputs blinding
      (decide
        ((system.residual domain solution.witness quotient).eval trapdoor.tau =
        system.publicSum domain trapdoor (1 :: inputs) -
          system.publicSum domain trapdoor solution.witness)) := by
  have hVerdict := prover.verdict_eq_decide_on hOn hPair hTrapdoor hWitness
    hLawful hSize hQuotient hInputs g₁ g₂ blinding
  have hExponents :=
    CompiledSystem.leftExponent_mul_rightExponent domain hOn.public_le
      hTrapdoor.delta_ne_zero solution.witness quotient blinding
  rw [hExponents] at hVerdict
  convert hVerdict using 2
  constructor
  · intro hResidual
    rw [hResidual]
    congr 2
    ring
  · intro hSame
    have hFactors := hPair.smul_injective hGenerators hSame
    linear_combination hFactors

end OtherDomain

theorem verdict_eq_decide (prover : Prover) (hOn : system.OnDomain domain)
    (hPair : Pairing.Bilinear G₁ G₂) (hTrapdoor : trapdoor.Admissible domain)
    (hWitness : solution.witness.length = system.layout.numWires)
    (hQuotient : domain.quotient prover.workers solution.a solution.b
      solution.c = .ok quotient)
    (hInputs : inputs.length = system.layout.numPublic.toNat - 1) (g₁ : G₁)
    (g₂ : G₂) (blinding : Blinding p) :
    prover.Verdict (system.keys g₁ g₂ trapdoor) solution domain inputs blinding
      (decide (Pairing.pair
        ((system.leftExponent domain trapdoor solution.witness blinding *
          system.rightExponent domain trapdoor solution.witness blinding) •
            g₁) g₂ =
        Pairing.pair ((trapdoor.alpha * trapdoor.beta +
          system.publicSum domain trapdoor (1 :: inputs) +
          system.closingExponent domain trapdoor solution.witness
            quotient blinding * trapdoor.delta) • g₁) g₂)) :=
  prover.verdict_eq_decide_on hOn hPair hTrapdoor hWitness hOn.lawful le_rfl
    hQuotient hInputs g₁ g₂ blinding

private theorem verdict_eq_decide_residual (prover : Prover)
    (hOn : system.OnDomain domain) (hPair : Pairing.Bilinear G₁ G₂) {g₁ : G₁}
    {g₂ : G₂} (hGenerators : Pairing.pair g₁ g₂ ≠ 1)
    (hTrapdoor : trapdoor.Admissible domain)
    (hWitness : solution.witness.length = system.layout.numWires)
    (hQuotient : domain.quotient prover.workers solution.a solution.b
      solution.c = .ok quotient)
    (hInputs : inputs.length = system.layout.numPublic.toNat - 1)
    (blinding : Blinding p) :
    prover.Verdict (system.keys g₁ g₂ trapdoor) solution domain inputs blinding
      (decide
        ((system.residual domain solution.witness quotient).eval trapdoor.tau =
        system.publicSum domain trapdoor (1 :: inputs) -
          system.publicSum domain trapdoor solution.witness)) :=
  prover.verdict_eq_decide_residual_on hOn hPair hTrapdoor hWitness hOn.lawful
    le_rfl hQuotient hInputs hGenerators blinding

/-- For wire values of which only constraints are violated, few secret points
are accepted. -/
private theorem exists_exceptions (prover : Prover)
    (hWellFormed : system.WellFormed)
    (hDomain : EvaluationDomain.ofSize p system.numRows = .ok domain)
    (hPair : Pairing.Bilinear G₁ G₂) {g₁ : G₁} {g₂ : G₂}
    (hGenerators : Pairing.pair g₁ g₂ ≠ 1)
    (hWitness : solution.witness.length = system.layout.numWires)
    (hQuotient : domain.quotient prover.workers solution.a solution.b
      solution.c = .ok quotient)
    (hInputs : inputs.length = system.layout.numPublic.toNat - 1)
    (hOne : solution.witness[0]? = some 1)
    (hRight : inputs = solution.publicInputs system.layout.numPublic.toNat)
    (hViolated : system.Violated solution.witness) :
    ∃ exceptions : Finset (Fp p), exceptions.card ≤ 2 * domain.size - 2 ∧
      ∀ (trapdoor : Trapdoor p) (blinding : Blinding p),
        trapdoor.Admissible domain →
        prover.Verdict
          (system.keys g₁ g₂ trapdoor) solution domain inputs blinding true →
        trapdoor.tau ∈ exceptions := by
  obtain ⟨number, c, left, right, output, hGet, hLeft, hRightValue, hOutput,
    hFails⟩ := hViolated
  refine ⟨(system.residual domain solution.witness quotient).roots.toFinset, ?_,
    ?_⟩
  · exact (Multiset.toFinset_card_le _).trans ((card_roots' _).trans
      (CompiledSystem.natDegree_residual_le
        (EvaluationDomain.ofSize_lawful hDomain).1 _ _))
  · intro trapdoor blinding hTrapdoor hAccepted
    have hOn := hAccepted.onDomain hWellFormed hDomain hWitness hInputs
    have hNonzero := CompiledSystem.residual_ne_zero hOn hWitness quotient hGet
      hLeft hRightValue hOutput hFails
    have hVerdict :=
      prover.verdict_eq_decide_residual hOn hPair hGenerators hTrapdoor hWitness
        hQuotient hInputs blinding
    have hResidual := of_decide_eq_true (hAccepted.unique hVerdict).symm
    rw [CompiledSystem.publicSum_eq_of_inputs domain hOne hRight.symm, sub_self]
      at hResidual
    rw [Multiset.mem_toFinset, mem_roots hNonzero]
    exact hResidual

/-- Whatever the wire values and the rows of a solution are, its proofs are
assembled and verified unless a count of the system has wrapped around, and
whether they are accepted depends on the wire values, the quotient, the inputs
and the secrets alone. When the inputs are those of the wire values but a
constraint is violated, at most `2n - 2` secret points are accepted. -/
theorem verdict_iff_residual (prover : Prover) {settings : SchedulerSettings}
    {flat : FlatSystem p} {system : CompiledSystem p} {solution : Solution p}
    {domain : EvaluationDomain p} {inputs : List (Fp p)} {g₁ : G₁} {g₂ : G₂}
    (hPair : Pairing.Bilinear G₁ G₂) (hGenerators : Pairing.pair g₁ g₂ ≠ 1)
    (hCompile : CompiledSystem.compile settings flat = .ok system)
    (hDomain : EvaluationDomain.ofSize p system.numRows = .ok domain)
    (hWitness : solution.witness.length = system.layout.numWires)
    (hAB : solution.a.length = solution.b.length)
    (hBC : solution.b.length = solution.c.length)
    (hRows : solution.a.length ≤ domain.size)
    (hInputs : inputs.length = system.layout.numPublic.toNat - 1) :
    ∃ quotient,
      domain.quotient prover.workers solution.a solution.b solution.c =
      .ok quotient ∧
      (∀ (trapdoor : Trapdoor p) (blinding : Blinding p),
        trapdoor.Admissible domain →
        (system.CountsFit → ∃ verdict,
          prover.Verdict (system.keys g₁ g₂ trapdoor) solution domain inputs
            blinding verdict) ∧
        ∀ verdict,
          prover.Verdict (system.keys g₁ g₂ trapdoor) solution domain inputs
            blinding verdict →
          (verdict = true ↔
            (system.leftSum domain solution.witness).eval trapdoor.tau *
                (system.rightSum domain solution.witness).eval trapdoor.tau -
              (system.outputSum domain solution.witness).eval trapdoor.tau -
              (polynomialOf (quotient.take (domain.size - 1))).eval
                trapdoor.tau * domain.vanishing trapdoor.tau =
            ∑ wire ∈ Finset.range system.layout.numPublic.toNat,
              ((1 :: inputs).getD wire 0 - solution.witness.getD wire 0) *
                (system.combinedPolynomial domain trapdoor wire).eval
                  trapdoor.tau)) ∧
      (solution.witness[0]? = some 1 →
        inputs = solution.publicInputs system.layout.numPublic.toNat →
        system.Violated solution.witness →
        ∃ exceptions : Finset (Fp p), exceptions.card ≤ 2 * domain.size - 2 ∧
          ∀ (trapdoor : Trapdoor p) (blinding : Blinding p),
            trapdoor.Admissible domain →
            prover.Verdict (system.keys g₁ g₂ trapdoor) solution domain inputs
              blinding true →
            trapdoor.tau ∈ exceptions) := by
  obtain ⟨resolution, hPlan⟩ := CompiledSystem.compile_planned hCompile
  have hWellFormed := hPlan.wellFormed
  obtain ⟨quotient, hQuotient⟩ :=
    EvaluationDomain.quotient_eq_ok_iff.mpr ⟨hAB, hBC, hRows⟩
  refine ⟨quotient, hQuotient, ?_, ?_⟩
  · intro trapdoor blinding hTrapdoor
    constructor
    · intro hFit
      exact ⟨_, prover.verdict_eq_decide_residual
        (hPlan.onDomain hFit hDomain) hPair hGenerators
        hTrapdoor hWitness hQuotient hInputs blinding⟩
    · intro verdict hVerdict
      have hOn := hVerdict.onDomain hWellFormed hDomain hWitness hInputs
      have hDecided := prover.verdict_eq_decide_residual hOn hPair hGenerators
        hTrapdoor hWitness hQuotient hInputs blinding
      rw [hVerdict.unique hDecided, decide_eq_true_iff]
      unfold CompiledSystem.residual CompiledSystem.publicSum
      rw [eval_sub, eval_sub, eval_mul, eval_mul,
        EvaluationDomain.eval_vanishing, ← Finset.sum_sub_distrib]
      simp only [sub_mul]
  · intro hOne hRight hViolated
    exact prover.exists_exceptions hWellFormed hDomain hPair hGenerators
      hWitness hQuotient hInputs hOne hRight hViolated

end Prover

/-! ## The square of six is not eight -/

/-- Three generates the nonzero residues modulo 17. -/
instance : TwoAdic 17 where
  adicity := 4
  root := Fp.ofNat 17 3

instance : LawfulTwoAdic 17 where
  isPrimitiveRoot_root := by
    have hOrder : orderOf (TwoAdic.root : Fp 17) = 2 ^ (3 + 1) := by
      apply orderOf_eq_prime_pow <;> decide +kernel
    show IsPrimitiveRoot (TwoAdic.root : Fp 17) (2 ^ (3 + 1))
    rw [← hOrder]
    exact IsPrimitiveRoot.orderOf _

/-- Wire values with six for the root of eight, and rows of zeros. -/
def squareOfSix : Solution 17 where
  a := List.replicate 7 0
  b := List.replicate 7 0
  c := List.replicate 7 0
  witness := [1, 8, 6, 8, 4, 0, 0].map (Fp.ofNat 17)

/-- The proofs for six as a root of eight are verified, and accepted for at most
fourteen secret points. -/
theorem verdict_iff_residual_square : ∃ (system : CompiledSystem 17)
    (domain : EvaluationDomain 17) (exceptions : Finset (Fp 17)),
    CompiledSystem.compile {} squareSystem = .ok system ∧
      system.Violated squareOfSix.witness ∧
      domain.size = 8 ∧ exceptions.card ≤ 2 * domain.size - 2 ∧
      ∀ (trapdoor : Trapdoor 17) (blinding : Blinding 17),
        trapdoor.Admissible domain →
        (∃ verdict,
          ({} : Prover).Verdict (system.keys (1 : Fp 17) (1 : Fp 17) trapdoor)
          squareOfSix domain [Fp.ofNat 17 8] blinding verdict) ∧
        (({} : Prover).Verdict
          (system.keys (1 : Fp 17) (1 : Fp 17) trapdoor) squareOfSix domain
          [Fp.ofNat 17 8] blinding true → trapdoor.tau ∈ exceptions) := by
  have hRun :
      ((CompiledSystem.compile {} squareSystem).toOption.any fun system =>
        system.constraints[0]?.any fun c =>
          (EvaluationDomain.ofSize 17 system.numRows).toOption.any fun domain =>
            (system.evaluate squareOfSix.witness.toArray c.left).toOption.any
              fun left =>
              (system.evaluate squareOfSix.witness.toArray c.right).toOption.any
                fun right =>
                (system.evaluate squareOfSix.witness.toArray
                  c.output).toOption.any fun output =>
                  decide (left * right ≠ output ∧ system.layout.numPublic = 2 ∧
                    system.layout.numWires = 7 ∧ system.countsFit = true ∧
                      domain.size = 8)) =
          true := by
    decide +kernel
  simp only [Option.any_eq_true, toOption_eq_some, decide_eq_true_eq] at hRun
  obtain ⟨system, hCompile, c, hGet, domain, hDomain, left, hLeft, right,
    hRight, output, hOutput, hFails, hPublic, hWires, hFit, hSize⟩ := hRun
  have hViolated : system.Violated squareOfSix.witness :=
    ⟨0, c, left, right, output, hGet, hLeft, hRight, hOutput, hFails⟩
  have hTwo : system.layout.numPublic.toNat = 2 := by
    rw [hPublic]
    rfl
  have hGenerators : Pairing.pair (1 : Fp 17) (1 : Fp 17) ≠ 1 := by decide
  have hWitness : squareOfSix.witness.length = system.layout.numWires :=
    hWires.symm
  have hRows : squareOfSix.a.length ≤ domain.size := by
    rw [hSize]
    decide
  have hInputs :
      [Fp.ofNat 17 8].length = system.layout.numPublic.toNat - 1 := by
    rw [hTwo]
    rfl
  obtain ⟨quotient, -, hVerdicts, hFew⟩ := Prover.verdict_iff_residual {}
    Pairing.bilinear_residues hGenerators hCompile hDomain hWitness rfl rfl
      hRows hInputs
  obtain ⟨exceptions, hCard, hExceptions⟩ :=
    hFew rfl (by rw [hTwo]; rfl) hViolated
  refine ⟨system, domain, exceptions, hCompile, hViolated, hSize, hCard, ?_⟩
  intro trapdoor blinding hTrapdoor
  exact ⟨(hVerdicts trapdoor blinding hTrapdoor).1
    (ValidSystem.countsFit_spec hFit), hExceptions trapdoor blinding hTrapdoor⟩

end RankOne
