import RankOne.Artifact.Artifact

/-!
# Proofs and public inputs
-/

namespace RankOne

/-- A proof: commitments to the left values, to the right values, and to the
quotient together with the wires that are not public. -/
structure Proof (G₁ G₂ : Type) where
  ar : G₁
  bs : G₂
  krs : G₁
deriving DecidableEq

/-- The values of the public wires, the one wire not included. -/
structure PublicInputs (p : Nat) where
  values : List (Fp p)
deriving DecidableEq

instance {G₁ G₂ : Type} [Codec G₁] [Codec G₂] : Artifact (Proof G₁ G₂) where
  magic := #v[0x47, 0x31, 0x36, 0x52]
  label := "proof"
  encode proof :=
    Codec.encode proof.ar ++ Codec.encode proof.bs ++ Codec.encode proof.krs
  decode := do
    let ar ← Codec.decode G₁
    let bs ← Codec.decode G₂
    let krs ← Codec.decode G₁
    return { ar, bs, krs }

instance {p : Nat} : Artifact (PublicInputs p) where
  magic := #v[0x47, 0x31, 0x36, 0x49]
  label := "public inputs"
  encode inputs := Codec.encode inputs.values
  decode := do return ⟨← Codec.decode (List (Fp p))⟩

namespace PublicInputs

variable {p : Nat}

/-- No inputs. -/
def empty : PublicInputs p := ⟨[]⟩

/-- Number of inputs. -/
def length (inputs : PublicInputs p) : Nat := inputs.values.length

/-- Whether there are no inputs. -/
def isEmpty (inputs : PublicInputs p) : Bool := inputs.values.isEmpty

end PublicInputs

end RankOne
