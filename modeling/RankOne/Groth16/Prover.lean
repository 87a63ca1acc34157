import RankOne.Constraint.Builder
import RankOne.Groth16.Assembly
import RankOne.Groth16.Setup
import RankOne.Groth16.Verification
import RankOne.Settings.Document

/-!
# The prover

The prover ties the parts together: it compiles descriptions, makes keys, proves
and verifies, and its errors say which part failed.

Proving first makes sure that the key was made for the system, that its lists
fit together and that there is a domain; only then does it solve the system and
draw the blinding scalars.
-/

namespace RankOne

/-- Why the prover fails, by the part that fails. -/
inductive ProverError where
  | system (cause : SystemError)
  | solving (cause : SolveError)
  | assembly (cause : AssemblyError)
  | verification (cause : VerificationError)
  | key (cause : KeyError)
  | artifact (cause : ArtifactError)
  | domain (cause : DomainError)
  | settings (cause : SettingsError)
deriving DecidableEq

namespace ProverError

/-- The text of an error. -/
def message : ProverError → String
  | system cause => "Constraint system error: " ++ cause.message
  | solving cause => "Solver error: " ++ cause.message
  | assembly cause => "Proof generation error: " ++ cause.message
  | verification cause => "Verification error: " ++ cause.message
  | key cause => "Key error: " ++ cause.message
  | artifact cause => "Serialization error: " ++ cause.message
  | domain cause => "Domain error: " ++ cause.message
  | settings cause => "Configuration error: " ++ cause.message

end ProverError

/-- A prover with its settings and the number of workers that it computes
with. -/
structure Prover where
  settings : ProverSettings := {}
  workers : Nat := 1
deriving DecidableEq, Repr

namespace Prover

variable {p : Nat}

/-- Compiles a description. -/
def compile [Modulus p] (prover : Prover) (builder : Builder p) :
    Outcome ProverError (CompiledSystem p) :=
  Outcome.rephrase .system (builder.compile prover.settings.scheduler)

variable {G₁ G₂ GT : Type} [SMul (Fp p) G₁] [SMul (Fp p) G₂]

/-- Makes keys for a system. -/
def generateKeys [TwoAdic p] [Drawable G₁] [Drawable G₂] (_prover : Prover)
    {σ : Type} [WordSource σ] (system : CompiledSystem p) :
    Draw σ (Except ProverError (KeyPair G₁ G₂)) := do
  let keys ← Setup.random system
  return keys.mapError fun cause => .key (.setup cause)

/-- Checks that a key belongs to a system. -/
def checkKey (key : ProvingKey G₁ G₂) (system : CompiledSystem p) :
    Except KeyError Unit :=
  if key.digest = system.digest then .ok ()
    else .error (.otherSystem key.digest system.digest)

variable [Zero G₁] [Add G₁] [Sub G₁] [Zero G₂] [Add G₂]

/-- All of proving that needs no randomness: the assembler, the domain and the
solution. -/
def prepare [TwoAdic p] (solver : Solver p) (key : ProvingKey G₁ G₂)
    (publicInputs secretInputs : List (Fp p)) :
    Outcome ProverError (Assembler G₁ G₂ × EvaluationDomain p ×
      Solution p) := do
  Outcome.rephrase .key (Outcome.ofExcept (checkKey key solver.system))
  let assembler ← Outcome.rephrase .assembly
    (Outcome.ofExcept (Assembler.ofKey key))
  let domain ← Outcome.rephrase .domain
    (Outcome.ofExcept (EvaluationDomain.ofSize p solver.system.numRows))
  let solution ← Outcome.rephrase .solving
    (solver.solve publicInputs secretInputs)
  return (assembler, domain, solution)

variable {σ : Type} [WordSource σ]

/-- Proves with the functions of a solver, drawing the blinding scalars. -/
def prove [TwoAdic p] (prover : Prover) (solver : Solver p)
    (key : ProvingKey G₁ G₂) (publicInputs secretInputs : List (Fp p)) :
    Draw σ (Outcome ProverError (Proof G₁ G₂)) := do
  match prepare solver key publicInputs secretInputs with
  | .error failure => return .error failure
  | .ok (assembler, domain, solution) => do
      let r ← Drawable.draw
      let s ← Drawable.draw
      return Outcome.rephrase .assembly
        (assembler.assemble prover.workers solution domain ⟨r, s⟩)

/-- Proves, and returns the public inputs beside the proof. -/
def proveWithInputs [TwoAdic p] (prover : Prover) (solver : Solver p)
    (key : ProvingKey G₁ G₂) (publicInputs secretInputs : List (Fp p)) :
    Draw σ (Outcome ProverError (Proof G₁ G₂ × PublicInputs p)) := do
  let proof ← prover.prove solver key publicInputs secretInputs
  return proof.map fun proof => (proof, ⟨publicInputs⟩)

/-- Verifies a proof. -/
def verify [Modulus p] [Pairing G₁ G₂ GT] [Mul GT] [DecidableEq GT]
    (_prover : Prover) (key : VerifyingKey G₁ G₂) (proof : Proof G₁ G₂)
    (inputs : PublicInputs p) : Except ProverError Bool :=
  (key.verify proof inputs).mapError .verification

end Prover

end RankOne
