import RankOne.Curve.Pairing
import RankOne.Groth16.Key
import RankOne.Groth16.Proof

/-!
# Verifying proofs

A proof is accepted when the pairing of its first two points equals the product
of three pairings: of the shifts `α` and `β`, of the combined public inputs with
`γ`, and of the third point with `δ`.
-/

namespace RankOne

/-- Why a proof cannot be verified. -/
inductive VerificationError where
  | inputCount (expected actual : Nat)
  /-- The key has no point for the one wire. -/
  | malformedKey
deriving DecidableEq, Repr

namespace VerificationError

/-- The text of an error. -/
def message : VerificationError → String
  | inputCount expected actual =>
      s!"Malformed public inputs: Expected {expected} public inputs, got {actual}"
  | malformedKey => "Groth16 verifier error: malformed verifying key"

end VerificationError

namespace VerifyingKey

variable {p : Nat} [Modulus p] {G₁ G₂ GT : Type} [Zero G₁] [Add G₁]
  [SMul (Fp p) G₁]

/-- The combined polynomials of the public wires, with the one wire in front of
the inputs. -/
def combinedInputs (key : VerifyingKey G₁ G₂) (inputs : List (Fp p)) : G₁ :=
  multiScalar (1 :: inputs) key.gammaAbcG1

variable [Pairing G₁ G₂ GT] [Mul GT] [DecidableEq GT]

/-- Whether a proof satisfies the verification equation. -/
def accepts (key : VerifyingKey G₁ G₂) (proof : Proof G₁ G₂)
    (inputs : List (Fp p)) : Bool :=
  Pairing.pair proof.ar proof.bs =
    Pairing.pair key.alphaG1 key.betaG2 *
      Pairing.pair (key.combinedInputs inputs) key.gammaG2 *
      Pairing.pair proof.krs key.deltaG2

/-- Verifies a proof against public inputs. -/
def verify (key : VerifyingKey G₁ G₂) (proof : Proof G₁ G₂)
    (inputs : PublicInputs p) : Except VerificationError Bool :=
  if inputs.length ≠ key.numPublicInputs then
    .error (.inputCount key.numPublicInputs inputs.length)
  else if key.gammaAbcG1.isEmpty then .error .malformedKey
  else .ok (key.accepts proof inputs.values)

end VerifyingKey

end RankOne
