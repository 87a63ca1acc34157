import RankOne.Groth16.Prover
import RankOne.Proofs.Witness.Packing

/-!
# Systems compiled under different settings

The settings of the scheduler have no say in whether a system compiles, in its
digest, or in the results of solving it. A key remembers the digest of the
system it was made for and nothing of its schedule, so that it serves the system
whatever the settings were.
-/

namespace RankOne

variable {p : Nat} [TwoAdic p]

/-! ## Drawn keys -/

variable {σ : Type}

/-- Whatever is drawn from a source of type `σ`, the result has a property. -/
def Draw.Always {α : Type} (σ : Type) (draw : Draw σ α) (P : α → Prop) : Prop :=
  ∀ source : σ, P (draw.run source).1

namespace Draw.Always

variable {α β : Type} {first : Draw σ α} {second : α → Draw σ β} {P : α → Prop}
  {Q : β → Prop}

theorem bind (hFirst : Draw.Always σ first P)
    (hSecond : ∀ drawn, P drawn → Draw.Always σ (second drawn) Q) :
    Draw.Always σ (first >>= second) Q :=
  fun source =>
    hSecond (first.run source).1 (hFirst source) (first.run source).2

theorem bind_any (hSecond : ∀ drawn, Draw.Always σ (second drawn) Q) :
    Draw.Always σ (first >>= second) Q :=
  have hFirst : Draw.Always σ first fun _ => True := fun _ => trivial
  hFirst.bind fun drawn _ => hSecond drawn

theorem pure {result : α} (h : P result) :
    Draw.Always σ (Pure.pure result) P :=
  fun _ => h

end Draw.Always

section Keys

variable [WordSource σ] {G₁ G₂ : Type} [SMul (Fp p) G₁] [SMul (Fp p) G₂]
  [Drawable G₁] [Drawable G₂]

/-- Keys that have been made for a system remember its digest. -/
theorem Setup.random_always (system : CompiledSystem p) :
    Draw.Always σ
      (Setup.random system) fun outcome : Except SetupFault (KeyPair G₁ G₂) =>
      ∀ keys, outcome = .ok keys →
        keys.proving.digest = system.digest ∧
          keys.verifying.digest = system.digest := by
  unfold Setup.random
  refine .bind_any fun alpha => .bind_any fun beta => .bind_any fun gamma =>
    .bind_any fun delta =>
    .bind_any fun g₁ => .bind_any fun g₂ => ?_
  dsimp only
  split
  · exact .pure fun keys h => by cases h
  · refine .bind_any fun tau => ?_
    split
    · exact .pure fun keys h => by cases h
    · refine .pure fun keys h => ?_
      injection h with h
      exact h ▸ ⟨rfl, rfl⟩

/-- A key is accepted with every system of the digest of the system it was made
for. -/
theorem Prover.generateKeys_always (prover : Prover)
    {system system' : CompiledSystem p}
    (hDigest : system'.digest = system.digest) :
    Draw.Always σ (prover.generateKeys system)
      fun outcome : Except ProverError (KeyPair G₁ G₂) =>
      ∀ keys, outcome = .ok keys → checkKey keys.proving system' = .ok () := by
  unfold generateKeys
  refine .bind (Setup.random_always system) fun made hMade =>
    .pure fun keys h => ?_
  cases made with
  | error cause => cases h
  | ok keys' =>
      injection h with h
      subst h
      unfold checkKey
      rw [(hMade keys' rfl).1, hDigest, if_pos rfl]

end Keys

/-! ## Compilation -/

namespace CompiledSystem

/-- Systems that stand for each other: they are the same up to their schedules,
solving them comes to the same result, and the keys of one are accepted with the
other. -/
structure Interchangeable (system system' : CompiledSystem p) : Prop where
  valid : system'.toValidSystem = system.toValidSystem
  digest : system'.digest = system.digest
  solve : ∀ (functions : Std.TreeMap Nat (HintFunction p))
    (publicInputs secretInputs : List (Fp p)),
    Solver.solve { system := system', functions } publicInputs secretInputs =
      Solver.solve { system, functions } publicInputs secretInputs
  accepts : ∀ {σ G₁ G₂ : Type} [WordSource σ] [SMul (Fp p) G₁] [SMul (Fp p) G₂]
    [Drawable G₁] [Drawable G₂] (prover : Prover),
    Draw.Always σ (prover.generateKeys system)
      fun outcome : Except ProverError (KeyPair G₁ G₂) =>
        ∀ keys, outcome = .ok keys →
          Prover.checkKey keys.proving system' = .ok ()

/-- Two ways of compiling come to the same: both fail, with the same failure, or
both yield systems, which stand for each other. -/
def SameOutcome (outcome outcome' : Outcome SystemError (CompiledSystem p)) :
    Prop :=
  (∃ failure, outcome = .error failure ∧ outcome' = .error failure) ∨
    ∃ system system', outcome = .ok system ∧ outcome' = .ok system' ∧
      system.Interchangeable system'

/-- Whatever the settings, a flat system and a description compile to the
same. -/
theorem compile_settings (settings settings' : SchedulerSettings) :
    (∀ flat : FlatSystem p,
      SameOutcome (compile settings flat) (compile settings' flat)) ∧
      ∀ builder : Builder p,
        SameOutcome (builder.compile settings) (builder.compile settings') := by
  have hFlat : ∀ flat : FlatSystem p,
      SameOutcome (compile settings flat) (compile settings' flat) := by
    intro flat
    cases hValid : flat.validate with
    | error failure =>
        refine Or.inl ⟨failure, ?_, ?_⟩ <;>
          exact bind_eq_error.mpr (Or.inl hValid)
    | ok valid =>
        obtain ⟨-, hSystem⟩ := FlatSystem.validate_wellFormed hValid
        rcases Schedule.ofSystem_settings settings settings' hSystem with
          ⟨cause, hCause, hCause'⟩ | ⟨schedule, schedule', hSchedule,
            hSchedule', hSame⟩
        · exact Or.inl ⟨.fault cause, compile_eq_fault hValid hCause,
            compile_eq_fault hValid hCause'⟩
        · have hCompile :=
            compile_eq_ok.mpr ⟨valid, hValid, schedule, hSchedule, rfl⟩
          have hCompile' :=
            compile_eq_ok.mpr ⟨valid, hValid, schedule', hSchedule', rfl⟩
          obtain ⟨resolution, hPlan⟩ := compile_planned hCompile
          exact Or.inr ⟨_, _, hCompile, hCompile',
            { valid := rfl
              digest := rfl
              solve :=
                fun functions => Solver.solve_congr hPlan ⟨rfl, rfl⟩ hSame
              accepts := fun prover => prover.generateKeys_always rfl }⟩
  refine ⟨hFlat, fun builder => ?_⟩
  unfold Builder.compile
  cases hFlatten : builder.flatten with
  | error e => exact Or.inl ⟨.reported e, rfl, rfl⟩
  | ok flat => exact hFlat flat

end CompiledSystem

end RankOne
