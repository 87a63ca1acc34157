import RankOne.Proofs.Constraint.Fingerprint
import RankOne.Proofs.Groth16.Acceptance
import RankOne.Proofs.Groth16.Interchange

/-!
# Which systems a key serves

Before anything else, proving compares the digest that a key remembers with the
digest of the system to be solved. A digest stands for all of a system but its
schedule. As long as SHA-256 tells the byte strings of two systems apart, the
keys of one are therefore accepted with the other exactly when the two agree in
their layouts, constraints, coefficients and hints.
-/

namespace RankOne

variable {p : Nat}

/-- The digest of a compiled system is that of the system it was compiled
from. -/
private theorem CompiledSystem.digest_of_compile [Modulus p]
    {settings : SchedulerSettings} {flat : FlatSystem p}
    {system : CompiledSystem p} (h : compile settings flat = .ok system) :
    system.digest = sha256 flat.bytes := by
  obtain ⟨valid, -, schedule, -, hSystem⟩ := compile_eq_ok.mp h
  rw [← hSystem]
  rfl

namespace Prover

/-- The result says that the key belongs to another system. -/
def OtherSystem {α : Type} (result : Outcome ProverError α) : Prop :=
  ∃ own other, result = .error (.reported (.key (.otherSystem own other)))

private theorem otherSystem_bind {α β : Type} {x : Outcome ProverError α}
    {f : α → Outcome ProverError β} (h : OtherSystem (x >>= f)) :
    OtherSystem x ∨ ∃ a, OtherSystem (f a) := by
  obtain ⟨own, other, h⟩ := h
  rcases bind_eq_error.mp h with hFirst | ⟨a, -, hSecond⟩
  · exact Or.inl ⟨own, other, hFirst⟩
  · exact Or.inr ⟨a, own, other, hSecond⟩

/-- The errors of the parts do not speak of another system, unless they are
errors of keys. -/
private theorem not_otherSystem_rephrase {ε α : Type} {f : ε → ProverError}
    (hPart : ∀ e own other, f e ≠ .key (.otherSystem own other))
    (x : Outcome ε α) :
    ¬OtherSystem (Outcome.rephrase f x) := by
  rintro ⟨own, other, h⟩
  cases x with
  | ok a => cases h
  | error failure =>
      cases failure with
      | fault cause => cases h
      | reported e =>
          injection h with h
          injection h with h
          exact hPart e own other h

variable {G₁ G₂ : Type}

theorem checkKey_eq_ok {key : ProvingKey G₁ G₂} {system : CompiledSystem p} :
    checkKey key system = .ok () ↔ key.digest = system.digest := by
  unfold checkKey
  by_cases hDigest : key.digest = system.digest
  · simp [hDigest]
  · simp [hDigest]

variable [TwoAdic p]

/-- The digests are compared first, and no later step speaks of another
system. -/
private theorem prepare_otherSystem_iff (solver : Solver p)
    (key : ProvingKey G₁ G₂) (publicInputs secretInputs : List (Fp p)) :
    OtherSystem (prepare solver key publicInputs secretInputs) ↔
      key.digest ≠ solver.system.digest := by
  unfold prepare checkKey
  by_cases hDigest : key.digest = solver.system.digest
  · rw [if_pos hDigest]
    refine ⟨fun h => ?_, fun h => absurd hDigest h⟩
    rcases otherSystem_bind h with ⟨_, _, h⟩ | ⟨_, h⟩
    · cases h
    rcases otherSystem_bind h with h | ⟨_, h⟩
    · exact absurd h (not_otherSystem_rephrase (by simp) _)
    rcases otherSystem_bind h with h | ⟨_, h⟩
    · exact absurd h (not_otherSystem_rephrase (by simp) _)
    rcases otherSystem_bind h with h | ⟨_, _, _, h⟩
    · exact absurd h (not_otherSystem_rephrase (by simp) _)
    · cases h
  · rw [if_neg hDigest]
    exact ⟨fun _ => hDigest, fun _ => ⟨_, _, rfl⟩⟩

variable [SMul (Fp p) G₁] [SMul (Fp p) G₂] [Zero G₁] [Add G₁] [Sub G₁]
  [Zero G₂] [Add G₂] {σ : Type} [WordSource σ]

/-- Proving refuses a key, whatever is drawn, exactly when it remembers another
digest. -/
theorem prove_otherSystem_iff (prover : Prover) (solver : Solver p)
    (key : ProvingKey G₁ G₂) (publicInputs secretInputs : List (Fp p)) :
    Draw.Always σ
      (prover.prove solver key publicInputs secretInputs) fun result =>
      OtherSystem result ↔ key.digest ≠ solver.system.digest := by
  have hPrepare := prepare_otherSystem_iff solver key publicInputs secretInputs
  unfold prove
  cases h : prepare solver key publicInputs secretInputs with
  | error failure =>
      rw [h] at hPrepare
      refine .pure ?_
      rw [← hPrepare]
      unfold OtherSystem
      simp
  | ok prepared =>
      have hDigest : ¬key.digest ≠ solver.system.digest := by
        rw [← hPrepare, h]
        rintro ⟨_, _, h⟩
        cases h
      refine .bind_any fun r => .bind_any fun s => .pure ?_
      exact iff_of_false (not_otherSystem_rephrase (by simp) _) hDigest

/-- Different systems are written differently. Unless their byte strings collide
under SHA-256, proving for one of them with a key that was made for the other
gets past the comparison of the digests exactly when the two agree in their
layouts, constraints, coefficients and hints. -/
theorem serves_iff (σ σ' : Type) [WordSource σ] [WordSource σ'] [Drawable G₁]
    [Drawable G₂] {flat flat' : FlatSystem p}
    (hFlat : flat.Addressable) (hFlat' : flat'.Addressable) :
    (flat.bytes = flat'.bytes ↔ flat = flat') ∧
      ((sha256 flat.bytes = sha256 flat'.bytes → flat.bytes = flat'.bytes) →
        ∀ (settings settings' : SchedulerSettings) (system : CompiledSystem p)
          (prover prover' : Prover) (solver : Solver p)
          (publicInputs secretInputs : List (Fp p)),
          CompiledSystem.compile settings flat = .ok system →
          CompiledSystem.compile settings' flat' = .ok solver.system →
          Draw.Always σ (prover.generateKeys system)
            fun outcome : Except ProverError (KeyPair G₁ G₂) =>
              ∀ keys, outcome = .ok keys →
                Draw.Always σ'
                  (prover'.prove solver keys.proving publicInputs secretInputs)
                  fun result => ¬OtherSystem result ↔ flat = flat') := by
  refine ⟨hFlat.bytes_inj hFlat', ?_⟩
  intro hCollision settings settings' system prover prover' solver publicInputs
    secretInputs hCompile hCompile' source keys hKeys source'
  have hKey : keys.proving.digest = system.digest :=
    checkKey_eq_ok.mp (prover.generateKeys_always rfl source keys hKeys)
  have hRefused : OtherSystem _ ↔ keys.proving.digest ≠ solver.system.digest :=
    prover'.prove_otherSystem_iff solver keys.proving publicInputs
      secretInputs source'
  have hDigest : system.digest = solver.system.digest ↔ flat = flat' := by
    rw [CompiledSystem.digest_of_compile hCompile,
      CompiledSystem.digest_of_compile hCompile']
    exact ⟨fun h => (hFlat.bytes_inj hFlat').mp (hCollision h),
      fun h => h ▸ rfl⟩
  show ¬OtherSystem _ ↔ flat = flat'
  rw [hRefused, hKey, not_not, hDigest]

end Prover

/-! ## A coefficient that no term uses -/

/-- The system of the square roots, with one more coefficient in its table. -/
def squareWithTwo : FlatSystem 17 :=
  { squareSystem with coefficients := #[1, 2] }

private theorem squareSystem_addressable : squareSystem.Addressable where
  constraints := by decide
  constraint := by
    intro c hc
    have hAll : ∀ c ∈ squareSystem.constraints.toList,
        Countable c.left ∧ Countable c.right ∧ Countable c.output := by
      decide
    exact ⟨(hAll c hc).1, (hAll c hc).2.1, (hAll c hc).2.2⟩
  coefficients := by decide
  hints := by decide
  hint := by
    intro hint hHint
    have hAll : ∀ hint ∈ squareSystem.hints.toList, Countable hint.inputs ∧
        (∀ input ∈ hint.inputs, Countable input.terms) ∧ Countable hint.wires ∧
          ∀ wire ∈ hint.wires, wire < 2 ^ 64 := by
      decide
    exact ⟨(hAll hint hHint).1, (hAll hint hHint).2.1, (hAll hint hHint).2.2.1,
      (hAll hint hHint).2.2.2⟩

private theorem squareWithTwo_addressable : squareWithTwo.Addressable :=
  { squareSystem_addressable with coefficients := by decide }

/-- A key that is drawn for the square roots is never accepted with the longer
table. -/
theorem serves_iff_square : ∃ (system : CompiledSystem 17) (solver : Solver 17)
    (keys : KeyPair (Fp 17) (Fp 17)),
    CompiledSystem.compile {} squareSystem = .ok system ∧
      CompiledSystem.compile {} squareWithTwo = .ok solver.system ∧
      squareSystem.bytes ≠ squareWithTwo.bytes ∧
      ((({} : Prover).generateKeys system).run (SplitMix.mk 5)).1 = .ok keys ∧
      Draw.Always SplitMix
        (({} : Prover).prove solver keys.proving [Fp.ofNat 17 8]
          [Fp.ofNat 17 5])
        Prover.OtherSystem := by
  have hRun :
      ((CompiledSystem.compile {} squareSystem).toOption.any fun system =>
        ((({} : Prover).generateKeys system).run
          (SplitMix.mk 5)).1.toOption.any fun (_ : KeyPair (Fp 17) (Fp 17)) =>
            (CompiledSystem.compile {} squareWithTwo).toOption.isSome) =
              true := by
    decide +kernel
  have hCollision : sha256 squareSystem.bytes = sha256 squareWithTwo.bytes →
      squareSystem.bytes = squareWithTwo.bytes := by
    intro h
    exact absurd h (by decide +kernel)
  have hDifferent : squareSystem ≠ squareWithTwo := by
    intro h
    exact absurd (congrArg (fun flat => flat.coefficients.size) h) (by decide)
  simp only [Option.any_eq_true, toOption_eq_some, isSome_toOption] at hRun
  obtain ⟨system, hCompile, keys, hKeys, system', hCompile'⟩ := hRun
  have hSame :=
    squareSystem_addressable.bytes_inj squareWithTwo_addressable
  have hBytes : squareSystem.bytes ≠ squareWithTwo.bytes :=
    fun h => hDifferent (hSame.mp h)
  refine ⟨system, Solver.ofSystem system', keys, hCompile, hCompile', hBytes,
    hKeys, fun source => ?_⟩
  have hServes := (Prover.serves_iff SplitMix SplitMix squareSystem_addressable
    squareWithTwo_addressable).2 hCollision {} {} system {} {}
      (Solver.ofSystem system') [Fp.ofNat 17 8] [Fp.ofNat 17 5] hCompile
      hCompile' (SplitMix.mk 5) keys hKeys source
  exact not_not.mp fun h => hDifferent (hServes.mp h)

end RankOne
