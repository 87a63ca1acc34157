import RankOne.Groth16.Key
import RankOne.Groth16.Proof
import RankOne.Polynomial.Quotient
import RankOne.Witness.Solver

/-!
# Assembling proofs

A proof combines the points of a proving key with a solution, its quotient and
two blinding scalars. The key's lists are checked against each other once; what
remains to be checked for a solution is that it has a value for every wire and
that the domain has a coefficient for every quotient point of the key.

The key has one quotient point less than the domain has points. The coefficient
without a partner is zero when the solution satisfies the system.
-/

namespace RankOne

/-- Why no proof can be assembled: the lists of the key do not fit together, the
solution does not have one value for each wire of the key, or the key has more
quotient points than the quotient has coefficients. -/
inductive AssemblyError where
  | invalidKey (cause : ShapeFault)
  | witnessLength (expected actual : Nat)
  | quotientLength (expected actual : Nat)
deriving DecidableEq, Repr

namespace AssemblyError

/-- The text of an error. -/
def message : AssemblyError → String
  | invalidKey cause =>
    "Invalid proving key: " ++ (KeyError.shape cause).message
  | witnessLength expected actual =>
      s!"Witness length mismatch: expected {expected} wires, got {actual}"
  | quotientLength expected actual =>
      s!"Quotient length mismatch: key has {expected} bases, got {actual} coefficients"

end AssemblyError

/-- A proving key whose lists fit together. -/
structure Assembler (G₁ G₂ : Type) where
  key : ProvingKey G₁ G₂
  shaped : key.checkShape = .ok ()

/-- The two scalars that hide the solution: `r` blinds the left values, and `s`
the right ones. -/
structure Blinding (p : Nat) where
  r : Fp p
  s : Fp p
deriving DecidableEq

namespace Assembler

variable {G₁ G₂ : Type}

/-- Checks the lists of a key. -/
def ofKey (key : ProvingKey G₁ G₂) : Except AssemblyError (Assembler G₁ G₂) :=
  match h : key.checkShape with
  | .ok () => .ok ⟨key, h⟩
  | .error cause => .error (.invalidKey cause)

variable {p : Nat} [Zero G₁] [Add G₁] [Sub G₁] [SMul (Fp p) G₁]

/-- The left values, shifted by `α` and blinded. -/
def left (key : ProvingKey G₁ G₂) (witness : List (Fp p)) (r : Fp p) : G₁ :=
  multiScalar witness key.aG1 + r • key.deltaG1 + key.alphaG1

/-- The right values in the first group, shifted by `β` and blinded. -/
def rightFirst (key : ProvingKey G₁ G₂) (witness : List (Fp p)) (s : Fp p) :
    G₁ :=
  multiScalar witness key.bG1 + s • key.deltaG1 + key.betaG1

/-- The right values in the second group, shifted by `β` and blinded. -/
def rightSecond [Zero G₂] [Add G₂] [SMul (Fp p) G₂] (key : ProvingKey G₁ G₂)
    (witness : List (Fp p)) (s : Fp p) : G₂ :=
  multiScalar witness key.bG2 + s • key.deltaG2 + key.betaG2

/-- The quotient and the wires that are not public, corrected for the blinding
of both sides. -/
def closing (key : ProvingKey G₁ G₂) (witness quotient : List (Fp p))
    (ar bs : G₁) (blinding : Blinding p) : G₁ :=
  multiScalar (quotient.take key.zG1.length) key.zG1 +
    multiScalar (witness.drop key.numPublic.toNat) key.kG1 +
    blinding.s • ar + blinding.r • bs - (blinding.r * blinding.s) • key.deltaG1

variable [Zero G₂] [Add G₂] [SMul (Fp p) G₂]

/-- The proof for wire values and a quotient. -/
def combine (key : ProvingKey G₁ G₂) (witness quotient : List (Fp p))
    (blinding : Blinding p) : Proof G₁ G₂ :=
  let ar := left key witness blinding.r
  { ar
    bs := rightSecond key witness blinding.s
    krs := closing key witness quotient ar
      (rightFirst key witness blinding.s) blinding }

/-- Assembles the proof for a solution over a domain. -/
def assemble [Modulus p] (assembler : Assembler G₁ G₂) (workers : Nat)
    (solution : Solution p) (domain : EvaluationDomain p)
    (blinding : Blinding p) : Outcome AssemblyError (Proof G₁ G₂) :=
  let key := assembler.key
  if solution.witness.length ≠ key.numWires then
    Outcome.report (.witnessLength key.numWires solution.witness.length)
  else if domain.size < key.zG1.length then
    Outcome.report (.quotientLength key.zG1.length domain.size)
  else
    match domain.quotient workers solution.a solution.b solution.c with
    | .error cause => Outcome.abandon cause
    | .ok quotient => .ok (combine key solution.witness quotient blinding)

end Assembler

end RankOne
