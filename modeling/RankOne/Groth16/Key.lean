import RankOne.Artifact.Artifact

/-!
# Proving and verifying keys

The proving key holds the points that the prover combines, one list per kind of
point:

| list   | group  | length                | combined with              |
|--------|--------|-----------------------|----------------------------|
| `aG1`  | first  | wires                 | the wire values            |
| `bG1`  | first  | wires                 | the wire values            |
| `bG2`  | second | wires                 | the wire values            |
| `zG1`  | first  | domain size less one  | the quotient               |
| `kG1`  | first  | wires that are secret | the values of these wires  |

Both keys remember the digest of the system they were made for.

Keys and everything made with them are generic in the two groups. The groups
only have to offer sums, negatives and multiples where an operation needs them.
-/

namespace RankOne

/-- A proving key. `aG1`, `bG1` and `bG2` hold the left and the right polynomial
of each wire, `kG1` the combined polynomial of each wire that is not public,
divided by `δ`, and `zG1` the powers of the secret point, times the vanishing
polynomial, divided by `δ`. The one wire counts as a public wire. -/
structure ProvingKey (G₁ G₂ : Type) where
  alphaG1 : G₁
  betaG1 : G₁
  betaG2 : G₂
  deltaG1 : G₁
  deltaG2 : G₂
  aG1 : List G₁
  bG1 : List G₁
  bG2 : List G₂
  zG1 : List G₁
  kG1 : List G₁
  numPublic : UInt64
  digest : Digest
deriving DecidableEq

/-- A verifying key. `gammaAbcG1` holds the combined polynomial of each public
wire, divided by `γ`. -/
structure VerifyingKey (G₁ G₂ : Type) where
  alphaG1 : G₁
  betaG2 : G₂
  gammaG2 : G₂
  deltaG2 : G₂
  gammaAbcG1 : List G₁
  digest : Digest
deriving DecidableEq

/-! ## Errors -/

/-- Why the lists of a proving key do not fit together. -/
inductive ShapeFault where
  /-- There is no public wire, or there are more of them than wires. -/
  | publicCount (numPublic wires : Nat)
  /-- The lists of right polynomials differ in length from the list of left
  polynomials. -/
  | rightCount (first second wires : Nat)
  /-- The list for wires that are not public has not one entry for each. -/
  | secretCount (entries wires : Nat)
deriving DecidableEq, Repr

namespace ShapeFault

/-- The text of a fault. -/
def message : ShapeFault → String
  | publicCount numPublic wires =>
    s!"{numPublic} public wires for {wires} wires"
  | rightCount first second wires =>
      s!"B bases cover {first} / {second} wires, A bases cover {wires}"
  | secretCount entries wires => s!"{entries} K bases for {wires} private wires"

end ShapeFault

/-- Why no keys can be made: the field has no group of roots of unity with an
element for each row, or a secret that is divided by is zero. -/
inductive SetupFault where
  | tooManyRows
  | zeroDivisor
deriving DecidableEq, Repr

namespace SetupFault

/-- The text of a fault. -/
def message : SetupFault → String
  | tooManyRows => "polynomial degree is too large"
  | zeroDivisor => "encountered an identity element in the CRS"

end SetupFault

/-- What can be wrong with keys. -/
inductive KeyError where
  | setup (cause : SetupFault)
  | shape (cause : ShapeFault)
  | otherSystem (key system : Digest)
  | file (cause : FileFault)
  | encoding (cause : ArtifactError)
deriving DecidableEq, Repr

namespace KeyError

/-- The text of an error. -/
def message : KeyError → String
  | setup cause => "Key generation failed: " ++ cause.message
  | shape cause => "Key incompatible with circuit: " ++ cause.message
  | otherSystem key system =>
      "Key incompatible with circuit: proving key was generated for circuit " ++
        Hex.encode key.toList ++ ", not " ++ Hex.encode system.toList
  | file cause => "Key file I/O error: " ++ cause.message
  | encoding cause => "Key encoding error: " ++ cause.message

/-- The error of a key for the error of an artifact: faults of files are
reported as such. -/
def ofArtifactError : ArtifactError → KeyError
  | .unreadable cause => file cause
  | .unwritable cause => file cause
  | e => encoding e

end KeyError

/-! ## Keys -/

/-- The sum of the multiples of points by scalars. Entries of the longer list
that have no partner are left out. -/
def multiScalar {p : Nat} {G : Type} [Zero G] [Add G] [SMul (Fp p) G]
    (scalars : List (Fp p)) (bases : List G) : G :=
  (scalars.zipWith (· • ·) bases).foldr (· + ·) 0

namespace ProvingKey

variable {G₁ G₂ : Type}

/-- Number of wires that the key covers. -/
def numWires (key : ProvingKey G₁ G₂) : Nat := key.aG1.length

/-- Checks that the lists of the key fit together. -/
def checkShape (key : ProvingKey G₁ G₂) : Except ShapeFault Unit :=
  let wires := key.numWires
  let numPublic := key.numPublic.toNat
  if numPublic = 0 ∨ wires < numPublic then
    .error (.publicCount numPublic wires)
  else if key.bG1.length ≠ wires ∨ key.bG2.length ≠ wires then
    .error (.rightCount key.bG1.length key.bG2.length wires)
  else if key.kG1.length ≠ wires - numPublic then
    .error (.secretCount key.kG1.length (wires - numPublic))
  else .ok ()

variable [Codec G₁] [Codec G₂]

instance : Artifact (ProvingKey G₁ G₂) where
  magic := #v[0x47, 0x31, 0x36, 0x50]
  label := "proving key"
  encode key :=
    Codec.encode key.alphaG1 ++ Codec.encode key.betaG1 ++
      Codec.encode key.betaG2 ++ Codec.encode key.deltaG1 ++
      Codec.encode key.deltaG2 ++ Codec.encode key.aG1 ++
      Codec.encode key.bG1 ++ Codec.encode key.bG2 ++ Codec.encode key.zG1 ++
      Codec.encode key.kG1 ++ Codec.encode key.numPublic ++
      Codec.encode key.digest
  decode := do
    let alphaG1 ← Codec.decode G₁
    let betaG1 ← Codec.decode G₁
    let betaG2 ← Codec.decode G₂
    let deltaG1 ← Codec.decode G₁
    let deltaG2 ← Codec.decode G₂
    let aG1 ← Codec.decode (List G₁)
    let bG1 ← Codec.decode (List G₁)
    let bG2 ← Codec.decode (List G₂)
    let zG1 ← Codec.decode (List G₁)
    let kG1 ← Codec.decode (List G₁)
    let numPublic ← Codec.decode UInt64
    let digest ← Codec.decode Digest
    return {
      alphaG1, betaG1, betaG2, deltaG1, deltaG2, aG1, bG1, bG2, zG1, kG1,
      numPublic, digest }

end ProvingKey

namespace VerifyingKey

variable {G₁ G₂ : Type}

/-- Number of public inputs that the key expects, the one wire not included. -/
def numPublicInputs (key : VerifyingKey G₁ G₂) : Nat :=
  key.gammaAbcG1.length - 1

variable [Codec G₁] [Codec G₂]

instance : Artifact (VerifyingKey G₁ G₂) where
  magic := #v[0x47, 0x31, 0x36, 0x56]
  label := "verifying key"
  encode key :=
    Codec.encode key.alphaG1 ++ Codec.encode key.betaG2 ++
      Codec.encode key.gammaG2 ++ Codec.encode key.deltaG2 ++
      Codec.encode key.gammaAbcG1 ++ Codec.encode key.digest
  decode := do
    let alphaG1 ← Codec.decode G₁
    let betaG2 ← Codec.decode G₂
    let gammaG2 ← Codec.decode G₂
    let deltaG2 ← Codec.decode G₂
    let gammaAbcG1 ← Codec.decode (List G₁)
    let digest ← Codec.decode Digest
    return { alphaG1, betaG2, gammaG2, deltaG2, gammaAbcG1, digest }

end VerifyingKey

namespace KeyFile

variable {α : Type} [Artifact α]

/-- Reads a key from a file. -/
def load (files : Files) (path : Path) : Outcome KeyError α :=
  Outcome.rephrase KeyError.ofArtifactError (Artifact.load files path)

/-- Writes a key to a file. -/
def save (files : Files) (path : Path) (key : α) : Except KeyError Files :=
  (Artifact.save files path key).mapError KeyError.ofArtifactError

end KeyFile

end RankOne
