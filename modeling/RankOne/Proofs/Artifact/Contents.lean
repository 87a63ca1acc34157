import RankOne.Groth16.Key
import RankOne.Groth16.Proof
import RankOne.Proofs.Artifact.Envelope
import RankOne.Proofs.Bytes.Hex

/-!
# Reading an artifact

An artifact is read in two steps, the envelope and the contents, and it is read
exactly when both succeed. What stands behind the value in the contents has no
say in this.
-/

namespace RankOne

namespace Artifact

variable {α : Type} [Artifact α]

/-- Contents are read as the value in front of them. -/
private theorem ofContents_eq_ok {payload : List UInt8} {a : α} :
    ofContents payload = .ok a ↔
    ∃ rest, (decode : Decoder α).run payload = .ok (a, rest) := by
  unfold ofContents
  cases hRun : (decode : Decoder α).run payload with
  | error failure =>
      constructor
      · intro h
        cases h
      · rintro ⟨rest, h⟩
        cases h
  | ok result =>
      obtain ⟨b, rest⟩ := result
      constructor
      · intro h
        cases h
        exact ⟨rest, rfl⟩
      · rintro ⟨rest', h⟩
        cases h
        rfl

/-- An artifact is read from the envelopes of contents that it stands in front
of. -/
theorem ofBytes_eq_ok {bytes : List UInt8} {a : α} : ofBytes bytes = .ok a ↔
    ∃ payload rest, bytes = Envelope.pack (magic α) formatVersion payload ∧
      payload.length < 2 ^ 64 ∧
        (decode : Decoder α).run payload = .ok (a, rest) := by
  unfold ofBytes
  cases hOpen : Envelope.unpack (magic α) formatVersion bytes with
  | error cause =>
      constructor
      · intro h
        cases h
      · rintro ⟨payload, rest, hBytes, hPayload, -⟩
        rw [Envelope.unpack_eq_ok.mpr ⟨hBytes, hPayload⟩] at hOpen
        cases hOpen
  | ok payload =>
      obtain ⟨hBytes, hPayload⟩ := Envelope.unpack_eq_ok.mp hOpen
      show ofContents payload = .ok a ↔ _
      rw [ofContents_eq_ok]
      constructor
      · rintro ⟨rest, hRun⟩
        exact ⟨payload, rest, hBytes, hPayload, hRun⟩
      · rintro ⟨payload', rest, hBytes', hPayload', hRun⟩
        rw [Envelope.unpack_eq_ok.mpr ⟨hBytes', hPayload'⟩] at hOpen
        cases hOpen
        exact ⟨rest, hRun⟩

/-- The text of an artifact is read as its bytes are. -/
theorem ofHex_toHex (a : α) :
    (ofHex (toHex a) : Outcome ArtifactError α) = ofBytes (toBytes a) := by
  rw [ofHex, toHex, Hex.decode_encode]

end Artifact

variable {G₁ G₂ : Type}

namespace Proof

/-- The points of a proof in the first group. -/
def pointsG1 (proof : Proof G₁ G₂) : List G₁ := [proof.ar, proof.krs]

/-- The points of a proof in the second group. -/
def pointsG2 (proof : Proof G₁ G₂) : List G₂ := [proof.bs]

end Proof

namespace ProvingKey

/-- The points of a proving key in the first group. -/
def pointsG1 (key : ProvingKey G₁ G₂) : List G₁ :=
  [key.alphaG1, key.betaG1, key.deltaG1] ++ key.aG1 ++ key.bG1 ++
    key.zG1 ++ key.kG1

/-- The points of a proving key in the second group. -/
def pointsG2 (key : ProvingKey G₁ G₂) : List G₂ :=
  [key.betaG2, key.deltaG2] ++ key.bG2

end ProvingKey

namespace VerifyingKey

/-- The points of a verifying key in the first group. -/
def pointsG1 (key : VerifyingKey G₁ G₂) : List G₁ :=
  key.alphaG1 :: key.gammaAbcG1

/-- The points of a verifying key in the second group. -/
def pointsG2 (key : VerifyingKey G₁ G₂) : List G₂ :=
  [key.betaG2, key.gammaG2, key.deltaG2]

end VerifyingKey

end RankOne
