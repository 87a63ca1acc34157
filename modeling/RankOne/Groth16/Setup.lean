import RankOne.Constraint.Relation
import RankOne.Field.TwoAdic
import RankOne.Groth16.Key
import RankOne.Polynomial.Domain
import RankOne.Polynomial.PowerTable
import RankOne.Random.Element

/-!
# Making keys

Keys are made from five secret field elements. The rows of the relation, and
after them one row for each public variable, are put on the points of a group of
roots of unity. Every variable then has a left, a right and an output
polynomial, which take the variable's coefficients as values; the row of a
public variable adds a one to its left polynomial. The keys hold values of these
polynomials at the secret point `tau`, as multiples of two generators.

The point `tau` is not one of the roots of unity, so the value at `tau` of the
polynomial that is one at the `i`-th root `ωⁱ` and zero at the others is
`(tauⁿ - 1) / n · ωⁱ / (tau - ωⁱ)`.
-/

namespace RankOne

-- Powers of numbers are those of the language, also beside an algebra library.
attribute [local instance (2000)] instPowNat

/-- The secrets that keys are made from: `alpha` and `beta` shift the left and
the right values, `gamma` and `delta` divide what belongs to public variables
and to the others, and polynomials are evaluated at `tau`. -/
structure Trapdoor (p : Nat) where
  alpha : Fp p
  beta : Fp p
  gamma : Fp p
  delta : Fp p
  tau : Fp p
deriving DecidableEq

/-- A proving key with the verifying key that belongs to it. -/
structure KeyPair (G₁ G₂ : Type) where
  proving : ProvingKey G₁ G₂
  verifying : VerifyingKey G₁ G₂
deriving DecidableEq

namespace Setup

variable {p : Nat}

/-- The values at `tau` of a variable's three polynomials. -/
structure VariableValues (p : Nat) where
  left : Fp p
  right : Fp p
  output : Fp p
deriving DecidableEq

namespace VariableValues

/-- The value of the combined polynomial. -/
def combined (values : VariableValues p) (trapdoor : Trapdoor p) : Fp p :=
  trapdoor.beta * values.left + trapdoor.alpha * values.right + values.output

end VariableValues

variable [TwoAdic p]

/-- The value at `tau` of the vanishing polynomial of `2 ^ logSize` points. -/
def vanishingAt (tau : Fp p) (logSize : Nat) : Fp p :=
  power tau (2 ^ logSize) - 1

/-- The values at `tau` of the polynomials that are one at one root of unity of
order `2 ^ logSize` and zero at the others. -/
def lagrangeValues (tau : Fp p) (logSize : Nat) : List (Fp p) :=
  let scale := vanishingAt tau logSize * (Fp.ofNat p (2 ^ logSize))⁻¹
  (geometric 1 (TwoAdic.rootOfOrder p logSize) (2 ^ logSize)).map fun point =>
    scale * point * (tau - point)⁻¹

/-- The value at `tau` of the polynomial with a variable's coefficients as
values. -/
def columnValue (weights : List (Fp p)) (forms : List (LinearForm p))
    (target : Variable) : Fp p :=
  (weights.zipWith (fun weight form =>
    weight * form.coefficient target) forms).foldr (· + ·) 0

/-- The values of a variable. A public variable brings the value for a row of
its own. -/
def valuesOf (relation : Relation p) (weights : List (Fp p)) (ownRow : Fp p)
    (target : Variable) : VariableValues p where
  left :=
    columnValue weights (relation.rows.map RelationRow.left) target + ownRow
  right := columnValue weights (relation.rows.map RelationRow.right) target
  output := columnValue weights (relation.rows.map RelationRow.output) target

/-- The values of all variables. The rows of the public variables follow those
of the relation. -/
def allValues (relation : Relation p) (weights : List (Fp p)) :
    List (VariableValues p) :=
  let ownRows := (weights.drop relation.rows.length).take relation.numPublic
  (relation.allVariables.zipIdx).map fun (target, place) =>
    valuesOf relation weights (ownRows.getD place 0) target

/-- Number of rows: those of the relation and one for each public variable. -/
def rowCount (relation : Relation p) : Nat :=
  relation.rows.length + relation.numPublic

/-- The binary logarithm of the number of points that the rows are put on. -/
def logSizeOf (relation : Relation p) : Nat := ceilLog2 (rowCount relation)

variable {G₁ G₂ : Type} [SMul (Fp p) G₁] [SMul (Fp p) G₂]

/-- The keys for a relation. -/
def keysFrom (relation : Relation p) (digest : Digest) (g₁ : G₁) (g₂ : G₂)
    (trapdoor : Trapdoor p) : KeyPair G₁ G₂ :=
  let logSize := logSizeOf relation
  let values := allValues relation (lagrangeValues trapdoor.tau logSize)
  let publicValues := values.take relation.numPublic
  let secretValues := values.drop relation.numPublic
  let perGamma := trapdoor.gamma⁻¹
  let perDelta := trapdoor.delta⁻¹
  let alphaG1 := trapdoor.alpha • g₁
  let betaG2 := trapdoor.beta • g₂
  let deltaG2 := trapdoor.delta • g₂
  { proving := {
      alphaG1
      betaG1 := trapdoor.beta • g₁
      betaG2
      deltaG1 := trapdoor.delta • g₁
      deltaG2
      aG1 := values.map fun v => v.left • g₁
      bG1 := values.map fun v => v.right • g₁
      bG2 := values.map fun v => v.right • g₂
      zG1 :=
        (geometric (vanishingAt trapdoor.tau logSize * perDelta) trapdoor.tau
          (2 ^ logSize - 1)).map (· • g₁)
      kG1 := secretValues.map fun v => (v.combined trapdoor * perDelta) • g₁
      numPublic := relation.numPublic.toUInt64
      digest }
    verifying := {
      alphaG1
      betaG2
      gammaG2 := trapdoor.gamma • g₂
      deltaG2
      gammaAbcG1 :=
        publicValues.map fun v => (v.combined trapdoor * perGamma) • g₁
      digest } }

/-! ## Random keys -/

variable {σ : Type} [WordSource σ]

/-- One attempt at a point outside the roots of unity of order `2 ^ logSize`. -/
def attemptOutside (logSize : Nat) : Draw σ (Option (Fp p)) := do
  let drawn : Fp p ← Drawable.draw
  return if vanishingAt drawn logSize = 0 then none else some drawn

/-- Draws secrets and generators and makes the keys of a system. -/
def random [Drawable G₁] [Drawable G₂] (system : CompiledSystem p) :
    Draw σ (Except SetupFault (KeyPair G₁ G₂)) := do
  let alpha ← Drawable.draw
  let beta ← Drawable.draw
  let gamma : Fp p ← Drawable.draw
  let delta : Fp p ← Drawable.draw
  let g₁ : G₁ ← Drawable.draw
  let g₂ : G₂ ← Drawable.draw
  let relation := system.relation
  let logSize := logSizeOf relation
  if TwoAdic.adicity p < logSize then return .error .tooManyRows
  else
    let tau ← Draw.persist 0 (attemptOutside logSize)
    if gamma = 0 ∨ delta = 0 then return .error .zeroDivisor
    else return .ok (keysFrom relation system.digest g₁ g₂ ⟨alpha, beta, gamma,
      delta, tau⟩)

end Setup

end RankOne
