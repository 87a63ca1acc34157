import RankOne.Proofs.Groth16.Completeness
import RankOne.Proofs.Groth16.Interchange

/-!
# Proofs over another domain

Nothing ties the domain that a solution is brought to the assembler with to the
key. On a domain with fewer points than the key's own there is no place for all
rows, and no proof is assembled. On one with more points there is, and the key's
quotient points are combined with the first coefficients of a quotient by
another vanishing polynomial. The proof that comes out is accepted only if these
coefficients happen to have the value of the exact quotient's at the secret
point.
-/

namespace RankOne

variable {p : Nat} [TwoAdic p] {σ : Type}

/-! ## Drawn keys -/

/-- What holds of the fallback and of every successful attempt holds of what is
drawn. -/
private theorem Draw.Always.untilSuccess {α : Type} {fallback : α}
    {attempt : Draw σ (Option α)} {P : α → Prop} (hFallback : P fallback)
    (hAttempt : Draw.Always σ attempt fun drawn => ∀ a, drawn = some a → P a)
    (attempts : Nat) :
    Draw.Always σ (Draw.untilSuccess fallback attempt attempts) P := by
  induction attempts with
  | zero => exact .pure hFallback
  | succ attempts ih =>
      refine hAttempt.bind fun drawn hDrawn => ?_
      cases drawn with
      | none => exact ih
      | some a => exact .pure (hDrawn a rfl)

private theorem Draw.Always.persist [WordSource σ] {α : Type} {fallback : α}
    {attempt : Draw σ (Option α)} {P : α → Prop} (hFallback : P fallback)
    (hAttempt : Draw.Always σ attempt fun drawn => ∀ a, drawn = some a → P a) :
    Draw.Always σ (Draw.persist fallback attempt) P :=
  .untilSuccess hFallback hAttempt (WordSource.patience σ)

/-- Number of points that setup puts the rows of a system on. -/
def CompiledSystem.setupSize (system : CompiledSystem p) : Nat :=
  2 ^ Setup.logSizeOf system.relation

/-- Secrets that setup makes the keys of a system from: the divisors are not
zero, and the point is not one of those that the rows are put on. -/
structure Trapdoor.Usable (trapdoor : Trapdoor p) (system : CompiledSystem p) :
    Prop where
  gamma_ne_zero : trapdoor.gamma ≠ 0
  delta_ne_zero : trapdoor.delta ≠ 0
  outside : Setup.vanishingAt trapdoor.tau (Setup.logSizeOf system.relation) ≠ 0

variable [WordSource σ] [Fact p.Prime] {G₁ G₂ : Type} [AddCommGroup G₁]
  [Module (Fp p) G₁] [AddCommGroup G₂] [Module (Fp p) G₂]

/-- Zero, too, is a point outside. -/
private theorem Setup.vanishingAt_zero_ne_zero (logSize : Nat) :
    vanishingAt (0 : Fp p) logSize ≠ 0 := by
  unfold vanishingAt
  rw [power_eq_pow, zero_pow (Nat.two_pow_pos logSize).ne', zero_sub]
  exact neg_ne_zero.mpr one_ne_zero

/-- An attempt that succeeds has come upon a point outside. -/
private theorem Setup.attemptOutside_always (logSize : Nat) :
    Draw.Always σ (attemptOutside (p := p) logSize) fun drawn =>
      ∀ tau, drawn = some tau → vanishingAt tau logSize ≠ 0 := by
  refine .bind_any fun drawn => .pure fun tau hDrawn => ?_
  split at hDrawn
  · cases hDrawn
  · next hOutside =>
      injection hDrawn with hDrawn
      exact hDrawn ▸ hOutside

/-- The keys that are drawn for a system are made from usable secrets. -/
theorem Setup.random_usable [Drawable G₁] [Drawable G₂]
    (system : CompiledSystem p) :
    Draw.Always σ
      (Setup.random system) fun outcome : Except SetupFault (KeyPair G₁ G₂) =>
      ∀ keys, outcome = .ok keys →
        ∃ (g₁ : G₁) (g₂ : G₂) (trapdoor : Trapdoor p),
        trapdoor.Usable system ∧ keys = system.keys g₁ g₂ trapdoor := by
  unfold Setup.random
  refine .bind_any fun alpha => .bind_any fun beta => .bind_any fun gamma =>
    .bind_any fun delta =>
    .bind_any fun g₁ => .bind_any fun g₂ => ?_
  dsimp only
  split
  · exact .pure fun keys h => by cases h
  · have hTau : Draw.Always σ
        (Draw.persist (0 : Fp p) (attemptOutside (logSizeOf system.relation)))
        fun tau => vanishingAt tau (logSizeOf system.relation) ≠ 0 :=
      Draw.Always.persist (vanishingAt_zero_ne_zero _) (attemptOutside_always _)
    refine hTau.bind fun tau hOutside => ?_
    split
    · exact .pure fun keys h => by cases h
    · next hDivisors =>
        refine .pure fun keys h => ?_
        injection h with h
        exact ⟨g₁, g₂, ⟨alpha, beta, gamma, delta, tau⟩,
          ⟨fun hZero => hDivisors (Or.inl hZero),
            fun hZero => hDivisors (Or.inr hZero), hOutside⟩,
          h.symm⟩

namespace CompiledSystem

variable {system : CompiledSystem p} {trapdoor : Trapdoor p}

/-- It is the least power of two with a point for each row. -/
private theorem setupSize_eq (hPos : 0 < system.layout.numPublic.toNat)
    (hFit : system.CountsFit) :
    system.setupSize = 2 ^ ceilLog2 system.numRows := by
  unfold setupSize
  rw [logSizeOf_relation hPos hFit.public_le, hFit.numRows_eq]
  rfl

/-- Where some domain is not smaller than that of the keys, the latter
exists. -/
private theorem Planned.exists_onDomain [LawfulTwoAdic p]
    {resolution : Resolution} (hPlan : system.Planned resolution)
    (hFit : system.CountsFit) {size : Nat} {domain : EvaluationDomain p}
    (hDomain : EvaluationDomain.ofSize p size = .ok domain)
    (hLe : system.setupSize ≤ domain.size) :
    ∃ own, system.OnDomain own ∧ own.size = system.setupSize ∧
      (domain.size = system.setupSize → own = domain) := by
  have hSetup := setupSize_eq hPlan.wellFormed.public_pos hFit
  obtain ⟨-, hLog⟩ := EvaluationDomain.ofSize_lawful hDomain
  rw [hSetup, EvaluationDomain.size, hLog] at hLe ⊢
  obtain ⟨own, hOwn⟩ := EvaluationDomain.exists_ofSize_of_le
    ((Nat.pow_le_pow_iff_right Nat.one_lt_two).mp hLe) hDomain
  refine ⟨own, hPlan.onDomain hFit hOwn, ?_, fun hSame => ?_⟩
  · rw [EvaluationDomain.size, (EvaluationDomain.ofSize_lawful hOwn).2]
  · exact EvaluationDomain.ofSize_unique
      ((Nat.pow_right_inj Nat.one_lt_two).mp hSame).symm hDomain hOwn

/-! ## Smaller domains -/

/-- On a domain with fewer points than there are rows no proof is assembled. -/
private theorem assemble_keys_of_lt (hPos : 0 < system.layout.numPublic.toNat)
    (hPublic : system.layout.numPublic.toNat ≤ system.layout.numWires) {g₁ : G₁}
    {g₂ : G₂} {assembler : Assembler G₁ G₂}
    (hKey : Assembler.ofKey (system.keys g₁ g₂ trapdoor).proving =
      .ok assembler) {workers : Nat} {solution : Solution p}
    {domain : EvaluationDomain p}
    (hWitness : solution.witness.length = system.layout.numWires)
    (hAB : solution.a.length = solution.b.length)
    (hBC : solution.b.length = solution.c.length)
    (hRows : domain.size < solution.a.length) (blinding : Blinding p) :
    assembler.assemble workers solution domain blinding =
        Outcome.report (.quotientLength (system.setupSize - 1) domain.size) ∨
      assembler.assemble workers solution domain blinding =
        Outcome.abandon (.rowsExceedDomain solution.a.length domain.size) := by
  have hWires : solution.witness.length =
      (system.keys g₁ g₂ trapdoor).proving.numWires := by
    unfold ProvingKey.numWires
    rw [length_aG1_keys, hWitness]
    unfold witnessCount inputCount
    omega
  have hPoints :
      (system.keys g₁ g₂ trapdoor).proving.zG1.length = system.setupSize - 1 :=
    length_zG1_keys system trapdoor g₁ g₂
  unfold Assembler.assemble
  dsimp only
  rw [Assembler.key_eq hKey, if_neg (not_not.mpr hWires), hPoints]
  split
  · exact Or.inl rfl
  · right
    unfold EvaluationDomain.quotient
    rw [if_neg (not_not.mpr ⟨hAB, hBC⟩), if_pos hRows]

/-! ## Larger domains -/

omit [TwoAdic p] in
/-- Another quotient leaves another residual: the coefficients that are used
make the difference. -/
private theorem eval_residual_of_eq_zero (system : CompiledSystem p)
    (domain : EvaluationDomain p) {witness exact : List (Fp p)}
    (hExact : system.residual domain witness exact = 0) (quotient : List (Fp p))
    (x : Fp p) :
    (system.residual domain witness quotient).eval x =
      (evaluatePolynomial (exact.take (domain.size - 1)) x -
        evaluatePolynomial (quotient.take (domain.size - 1)) x) *
          domain.vanishing x := by
  have hZero := congrArg (Polynomial.eval x) hExact
  rw [Polynomial.eval_zero] at hZero
  unfold residual at hZero ⊢
  rw [Polynomial.eval_sub, Polynomial.eval_mul, EvaluationDomain.eval_vanishing,
    eval_polynomialOf] at hZero ⊢
  linear_combination hZero

end CompiledSystem

/-! ## Every domain -/

variable [LawfulTwoAdic p] {GT : Type} [CommMonoid GT] [DecidableEq GT]
  [Pairing G₁ G₂ GT] {solver : Solver p}
  {publicInputs secretInputs : List (Fp p)} {solution : Solution p}
  {trapdoor : Trapdoor p}

/-- Usable secrets are admissible for the domain of the rows. -/
theorem Trapdoor.Usable.admissible {system : CompiledSystem p}
    {own : EvaluationDomain p} (h : trapdoor.Usable system)
    (hOn : system.OnDomain own) : trapdoor.Admissible own where
  gamma_ne_zero := h.gamma_ne_zero
  delta_ne_zero := h.delta_ne_zero
  outside := by
    have hOutside := h.outside
    rwa [hOn.logSize_eq] at hOutside

/-- A larger domain has a quotient, too, and its coefficients decide. -/
private theorem Solution.Sound.verdict_larger {own domain : EvaluationDomain p}
    (hSound : solution.Sound solver publicInputs secretInputs)
    (hOn : solver.system.OnDomain own) (hTrapdoor : trapdoor.Admissible own)
    (hPair : Pairing.Bilinear G₁ G₂)
    (hLength : publicInputs.length = solver.system.layout.numPublic.toNat - 1)
    (prover : Prover) (g₁ : G₁) (g₂ : G₂) (hLawful : domain.Lawful)
    (hSize : own.size ≤ domain.size) :
    ∃ exact larger,
      own.quotient prover.workers solution.a solution.b solution.c = .ok exact ∧
      domain.quotient prover.workers solution.a solution.b solution.c =
        .ok larger ∧
      ∀ blinding : Blinding p,
        prover.Verdict (solver.system.keys g₁ g₂ trapdoor) solution domain
          publicInputs blinding (decide (Pairing.pair g₁ g₂ = 1 ∨
            evaluatePolynomial (larger.take (own.size - 1)) trapdoor.tau =
              evaluatePolynomial
                (exact.take (own.size - 1)) trapdoor.tau)) := by
  obtain ⟨exact, hExact⟩ := hSound.exists_exact hOn
  have hExists := hExact.quotient_eq prover.workers
  obtain ⟨hAB, hBC, hFits⟩ :=
    EvaluationDomain.quotient_eq_ok_iff.mp ⟨exact, hExists⟩
  obtain ⟨larger, hLarger⟩ :=
    EvaluationDomain.quotient_eq_ok_iff.mpr ⟨hAB, hBC, hFits.trans hSize⟩
  refine ⟨exact, larger, hExists, hLarger, fun blinding => ?_⟩
  by_cases hOne : Pairing.pair g₁ g₂ = 1
  · have hVerdict := prover.verdict_eq_decide_on hOn hPair hTrapdoor
      hSound.length_witness hLawful hSize hLarger hLength g₁ g₂ blinding
    rw [hPair.smul_eq_one hOne, hPair.smul_eq_one hOne, decide_eq_true rfl]
      at hVerdict
    rwa [decide_eq_true (Or.inl hOne)]
  · have hVerdict := prover.verdict_eq_decide_residual_on hOn hPair hTrapdoor
      hSound.length_witness hLawful hSize hLarger hLength hOne blinding
    convert hVerdict using 2
    rw [or_iff_right hOne,
      CompiledSystem.eval_residual_of_eq_zero _ _ hExact.residual_eq,
      CompiledSystem.publicSum_eq_of_inputs own hSound.one hSound.publicInputs,
      sub_self, mul_eq_zero, or_iff_left hTrapdoor.outside,
      sub_eq_zero, eq_comm]

/-- A solution of a compiled system is brought to the assembler with a domain
for any size. If the domain is smaller than the keys', the assembler reports
that it lacks coefficients, or there is no place for the rows; if it is the
keys', the proof is accepted; if it is larger, there is a proof as well, which
is accepted exactly when the coefficients that the key has points for have the
value of the exact quotient's, or the generators pair to one. -/
theorem Prover.verdict_on_domain (prover : Prover)
    {settings : SchedulerSettings} {flat : FlatSystem p} (g₁ : G₁) (g₂ : G₂)
    (hPair : Pairing.Bilinear G₁ G₂)
    (hCompile : CompiledSystem.compile settings flat = .ok solver.system)
    (hSolve : solver.solve publicInputs secretInputs = .ok solution)
    (hTrapdoor : trapdoor.Usable solver.system) {size : Nat}
    {domain : EvaluationDomain p}
    (hDomain : EvaluationDomain.ofSize p size = .ok domain) :
    ∃ assembler, Assembler.ofKey (solver.system.keys g₁ g₂ trapdoor).proving =
      .ok assembler ∧
      (domain.size < solver.system.setupSize → ∀ blinding : Blinding p,
        assembler.assemble prover.workers solution domain blinding =
            Outcome.report
              (.quotientLength (solver.system.setupSize - 1) domain.size) ∨
          assembler.assemble prover.workers solution domain blinding =
            Outcome.abandon (.rowsExceedDomain solution.a.length domain.size)) ∧
      (domain.size = solver.system.setupSize → ∀ blinding : Blinding p,
        prover.Verdict (solver.system.keys g₁ g₂ trapdoor) solution domain
          (solution.publicInputs solver.system.layout.numPublic.toNat)
            blinding true) ∧
      (solver.system.setupSize < domain.size → ∃ own exact larger,
        EvaluationDomain.ofSize p solver.system.numRows = .ok own ∧
        own.quotient prover.workers solution.a solution.b solution.c =
          .ok exact ∧
        domain.quotient prover.workers solution.a solution.b solution.c =
          .ok larger ∧
        ∀ blinding : Blinding p,
          prover.Verdict (solver.system.keys g₁ g₂ trapdoor) solution domain
            (solution.publicInputs solver.system.layout.numPublic.toNat)
              blinding
            (decide (Pairing.pair g₁ g₂ = 1 ∨
              evaluatePolynomial
                (larger.take (solver.system.setupSize - 1)) trapdoor.tau =
                evaluatePolynomial (exact.take (solver.system.setupSize - 1))
                  trapdoor.tau))) := by
  obtain ⟨hSound, hFit, hLength⟩ := Solver.solve_counts hCompile hSolve
  obtain ⟨resolution, hPlan⟩ := CompiledSystem.compile_planned hCompile
  have hPos := hPlan.wellFormed.public_pos
  obtain ⟨hLawful, -⟩ := EvaluationDomain.ofSize_lawful hDomain
  obtain ⟨assembler, hKey⟩ :=
    CompiledSystem.exists_assembler solver.system trapdoor g₁ g₂
  rw [hSound.publicInputs]
  refine ⟨assembler, hKey, ?_, ?_, ?_⟩
  · intro hSmaller blinding
    rw [CompiledSystem.setupSize_eq hPos hFit, EvaluationDomain.size,
      Nat.pow_lt_pow_iff_right Nat.one_lt_two] at hSmaller
    have hRows : domain.size < solution.a.length := by
      rw [hSound.length_a]
      exact two_pow_lt_of_lt_ceilLog2 hSmaller
    exact CompiledSystem.assemble_keys_of_lt hPos hFit.public_le hKey
      hSound.length_witness
      (hSound.length_a.trans hSound.length_b.symm)
        (hSound.length_b.trans hSound.length_c.symm)
      hRows blinding
  · intro hSame
    obtain ⟨own, hOn, -, hOwn⟩ := hPlan.exists_onDomain hFit hDomain hSame.ge
    rw [hOwn hSame] at hOn
    exact hSound.verdict_own hOn
      (hTrapdoor.admissible hOn) hPair hLength prover g₁ g₂
  · intro hLarger
    obtain ⟨own, hOn, hSize, -⟩ := hPlan.exists_onDomain hFit hDomain hLarger.le
    obtain ⟨exact, larger, hExact, hQuotient, hVerdict⟩ :=
      hSound.verdict_larger hOn
        (hTrapdoor.admissible hOn) hPair hLength prover g₁ g₂ hLawful
          (hSize.trans_le hLarger.le)
    rw [hSize] at hVerdict
    exact ⟨own, exact, larger, hOn.ofSize_eq, hExact, hQuotient, hVerdict⟩

/-! ## The square of five, on two points and on four -/

/-- A secret `x` and an internal `y` with `x · x = y`. With the row of the one
wire there are two rows. -/
def rootSystem : FlatSystem 17 where
  layout := ⟨1, 1, 1⟩
  constraints := #[⟨[⟨0, 1⟩], [⟨0, 1⟩], [⟨0, 2⟩]⟩]
  coefficients := #[1]
  hints := #[]

/-- Secrets for the keys of the system. -/
def rootTrapdoor : Trapdoor 17 where
  alpha := Fp.ofNat 17 2
  beta := Fp.ofNat 17 3
  gamma := Fp.ofNat 17 4
  delta := Fp.ofNat 17 5
  tau := Fp.ofNat 17 3

/-- On two points the proofs for the square of five are accepted, and on four
they come to a verdict that does not depend on the blinding. -/
theorem verdict_on_domain_root : ∃ (solver : Solver 17) (solution : Solution 17)
    (own larger : EvaluationDomain 17) (verdict : Bool),
    solver.solve [] [Fp.ofNat 17 5] = .ok solution ∧ own.size = 2 ∧
      larger.size = 4 ∧
      ∀ blinding,
        ({} : Prover).Verdict
          (solver.system.keys (1 : Fp 17) (1 : Fp 17) rootTrapdoor) solution own
          (solution.publicInputs solver.system.layout.numPublic.toNat)
            blinding true ∧
        ({} : Prover).Verdict
          (solver.system.keys (1 : Fp 17) (1 : Fp 17) rootTrapdoor) solution
          larger (solution.publicInputs solver.system.layout.numPublic.toNat)
            blinding verdict := by
  have hRun : ((CompiledSystem.compile {} rootSystem).toOption.any fun system =>
      ((Solver.ofSystem system).solve [] [Fp.ofNat 17 5]).toOption.any fun _ =>
        (EvaluationDomain.ofSize 17 2).toOption.any fun own =>
          (EvaluationDomain.ofSize 17 4).toOption.any fun larger =>
            decide (own.size = 2 ∧ larger.size = 4 ∧ system.setupSize = 2 ∧
              Setup.vanishingAt rootTrapdoor.tau
                (Setup.logSizeOf system.relation) ≠ 0)) =
        true := by
    decide +kernel
  simp only [Option.any_eq_true, toOption_eq_some, decide_eq_true_eq] at hRun
  obtain ⟨system, hCompile, solution, hSolve, own, hOwn, larger, hLarger, hTwo,
    hFour, hSetup, hOutside⟩ := hRun
  have hUsable : rootTrapdoor.Usable (Solver.ofSystem system).system :=
    ⟨by decide, by decide, hOutside⟩
  obtain ⟨-, -, -, hAccepted, -⟩ :=
    Prover.verdict_on_domain {} (1 : Fp 17) (1 : Fp 17)
      Pairing.bilinear_residues hCompile hSolve hUsable hOwn
  obtain ⟨-, -, -, -, hOther⟩ :=
    Prover.verdict_on_domain {} (1 : Fp 17) (1 : Fp 17)
      Pairing.bilinear_residues hCompile hSolve hUsable hLarger
  have hMore : system.setupSize < larger.size := by omega
  obtain ⟨_, _, _, -, -, -, hVerdict⟩ := hOther hMore
  exact ⟨Solver.ofSystem system, solution, own, larger, _, hSolve, hTwo, hFour,
    fun blinding =>
    ⟨hAccepted (hTwo.trans hSetup.symm) blinding, hVerdict blinding⟩⟩

/-- On four points a proof for the square of five is assembled that is not
accepted. -/
theorem rejected_on_larger_domain :
    ∃ (solver : Solver 17) (solution : Solution 17)
    (domain : EvaluationDomain 17),
    CompiledSystem.compile {} rootSystem = .ok solver.system ∧
      solver.solve [] [Fp.ofNat 17 5] = .ok solution ∧
      rootTrapdoor.Usable solver.system ∧
        EvaluationDomain.ofSize 17 4 = .ok domain ∧
      ({} : Prover).Verdict
        (solver.system.keys (1 : Fp 17) (1 : Fp 17) rootTrapdoor) solution
        domain (solution.publicInputs solver.system.layout.numPublic.toNat) ⟨0,
          0⟩ false := by
  have hRun : ((CompiledSystem.compile {} rootSystem).toOption.any fun system =>
      ((Solver.ofSystem system).solve [] [Fp.ofNat 17 5]).toOption.any
        fun solution =>
        (EvaluationDomain.ofSize 17 4).toOption.any fun domain =>
          (Assembler.ofKey (system.keys (1 : Fp 17) (1 : Fp 17)
              rootTrapdoor).proving).toOption.any fun assembler =>
            (assembler.assemble 1 solution domain ⟨0,
              0⟩).toOption.any fun proof =>
              decide (({} : Prover).verify (system.keys (1 : Fp 17) (1 : Fp 17)
                    rootTrapdoor).verifying proof
                  ⟨solution.publicInputs system.layout.numPublic.toNat⟩ =
                    .ok false ∧
                Setup.vanishingAt rootTrapdoor.tau
                  (Setup.logSizeOf system.relation) ≠ 0)) =
        true := by
    decide +kernel
  simp only [Option.any_eq_true, toOption_eq_some, decide_eq_true_eq] at hRun
  obtain ⟨system, hCompile, solution, hSolve, domain, hDomain, assembler, hKey,
    proof, hProof, hVerdict, hOutside⟩ := hRun
  exact ⟨Solver.ofSystem system, solution, domain, hCompile, hSolve,
    ⟨by decide, by decide, hOutside⟩, hDomain, assembler, proof, hKey,
      hProof, hVerdict⟩

end RankOne
