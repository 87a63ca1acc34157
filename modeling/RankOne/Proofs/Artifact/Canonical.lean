import RankOne.Proofs.Artifact.RoundTrip
import RankOne.Proofs.Curve.Bls12381

/-!
# Which bytes an artifact is read from

The bytes that an artifact is read from are an envelope of its kind, and the
contents begin with a spelling of the artifact: the spellings of its parts one
after the other, nothing in between and nothing left out. What stands behind
this front is ignored. So bytes of the right length are the bytes of the
artifact, provided that its points have one spelling each.

On BLS12-381 all points have one spelling. On BN254 all points but infinity
have, and infinity has one for each first coordinate.
-/

namespace RankOne

open Codec Decoder

/-! ## Spellings of artifacts -/

/-- An artifact with the byte strings that its contents may begin with. -/
class SpelledArtifact (α : Type) [Artifact α] where
  spellings : α → Language UInt8
  spelled {input rest : List UInt8} {a : α}
    (hRun : (Artifact.decode : Decoder α).run input = .ok (a, rest)) :
    Codec.Begins (spellings a) input rest

namespace Artifact

variable {α : Type} [Artifact α] [SpelledArtifact α]

/-- The only byte string that stands for the artifact is the one that its
contents are. -/
def OneSpelling (a : α) : Prop := SpelledArtifact.spellings a = {encode a}

/-- The bytes are an envelope of the kind of the artifact, whose contents begin
with a spelling of it. -/
def EnvelopeOf (a : α) (bytes : List UInt8) : Prop :=
  ∃ front ∈ SpelledArtifact.spellings a, ∃ rest,
    bytes = Envelope.pack (magic α) formatVersion (front ++ rest)

variable {bytes : List UInt8} {a : α}

theorem envelope_of_ofBytes (h : ofBytes bytes = .ok a) :
    EnvelopeOf a bytes := by
  obtain ⟨payload, rest, rfl, -, hRun⟩ := ofBytes_eq_ok.mp h
  obtain ⟨front, hFront, rfl⟩ := SpelledArtifact.spelled hRun
  exact ⟨front, hFront, rest, rfl⟩

/-- An envelope as long as that of an artifact with one spelling is that of the
artifact. -/
private theorem EnvelopeOf.eq_toBytes (h : EnvelopeOf a bytes)
    (hOne : OneSpelling a) (hLength : bytes.length = (toBytes a).length) :
    bytes = toBytes a := by
  obtain ⟨front, hFront, rest, rfl⟩ := h
  rw [hOne] at hFront
  have hFront : front = encode a := hFront
  subst hFront
  have hRest : rest.length = 0 := by
    rw [toBytes, Envelope.length_pack, Envelope.length_pack, List.length_append]
      at hLength
    omega
  rw [List.eq_nil_of_length_eq_zero hRest, List.append_nil, toBytes]

end Artifact

instance {p : Nat} : SpelledArtifact (PublicInputs p) where
  spellings inputs := Codec.spellings inputs.values
  spelled {input rest inputs} hRun := by
    obtain ⟨values, _, hValues, hRun⟩ := decode_bind_spelled hRun
    obtain ⟨rfl, rfl⟩ := run_pure_eq_ok.mp hRun
    exact hValues

variable {G₁ G₂ : Type} [Codec G₁] [Codec G₂] [SpelledCodec G₁]
  [SpelledCodec G₂]

/-- The spellings of the parts of a proof, one after the other. -/
def Proof.spellings (proof : Proof G₁ G₂) : Language UInt8 :=
  Codec.spellings proof.ar * Codec.spellings proof.bs *
    Codec.spellings proof.krs

instance : SpelledArtifact (Proof G₁ G₂) where
  spellings := Proof.spellings
  spelled {input rest proof} hRun := by
    obtain ⟨ar, _, hAr, hRun⟩ := decode_bind_spelled hRun
    obtain ⟨bs, _, hBs, hRun⟩ := decode_bind_spelled hRun
    obtain ⟨krs, _, hKrs, hRun⟩ := decode_bind_spelled hRun
    obtain ⟨rfl, rfl⟩ := run_pure_eq_ok.mp hRun
    exact hAr.mul hBs |>.mul hKrs

/-- The spellings of the parts of a proving key, one after the other. -/
def ProvingKey.spellings (key : ProvingKey G₁ G₂) : Language UInt8 :=
  Codec.spellings key.alphaG1 * Codec.spellings key.betaG1 *
    Codec.spellings key.betaG2 * Codec.spellings key.deltaG1 *
    Codec.spellings key.deltaG2 * Codec.spellings key.aG1 *
    Codec.spellings key.bG1 * Codec.spellings key.bG2 *
    Codec.spellings key.zG1 * Codec.spellings key.kG1 *
    Codec.spellings key.numPublic * Codec.spellings key.digest

instance : SpelledArtifact (ProvingKey G₁ G₂) where
  spellings := ProvingKey.spellings
  spelled {input rest key} hRun := by
    obtain ⟨alphaG1, _, hAlphaG1, hRun⟩ := decode_bind_spelled hRun
    obtain ⟨betaG1, _, hBetaG1, hRun⟩ := decode_bind_spelled hRun
    obtain ⟨betaG2, _, hBetaG2, hRun⟩ := decode_bind_spelled hRun
    obtain ⟨deltaG1, _, hDeltaG1, hRun⟩ := decode_bind_spelled hRun
    obtain ⟨deltaG2, _, hDeltaG2, hRun⟩ := decode_bind_spelled hRun
    obtain ⟨aG1, _, hAG1, hRun⟩ := decode_bind_spelled hRun
    obtain ⟨bG1, _, hBG1, hRun⟩ := decode_bind_spelled hRun
    obtain ⟨bG2, _, hBG2, hRun⟩ := decode_bind_spelled hRun
    obtain ⟨zG1, _, hZG1, hRun⟩ := decode_bind_spelled hRun
    obtain ⟨kG1, _, hKG1, hRun⟩ := decode_bind_spelled hRun
    obtain ⟨numPublic, _, hNumPublic, hRun⟩ := decode_bind_spelled hRun
    obtain ⟨digest, _, hDigest, hRun⟩ := decode_bind_spelled hRun
    obtain ⟨rfl, rfl⟩ := run_pure_eq_ok.mp hRun
    exact hAlphaG1.mul hBetaG1 |>.mul hBetaG2 |>.mul hDeltaG1
      |>.mul hDeltaG2 |>.mul hAG1 |>.mul hBG1 |>.mul hBG2 |>.mul hZG1
      |>.mul hKG1 |>.mul hNumPublic |>.mul hDigest

/-- The spellings of the parts of a verifying key, one after the other. -/
def VerifyingKey.spellings (key : VerifyingKey G₁ G₂) : Language UInt8 :=
  Codec.spellings key.alphaG1 * Codec.spellings key.betaG2 *
    Codec.spellings key.gammaG2 * Codec.spellings key.deltaG2 *
    Codec.spellings key.gammaAbcG1 * Codec.spellings key.digest

instance : SpelledArtifact (VerifyingKey G₁ G₂) where
  spellings := VerifyingKey.spellings
  spelled {input rest key} hRun := by
    obtain ⟨alphaG1, _, hAlphaG1, hRun⟩ := decode_bind_spelled hRun
    obtain ⟨betaG2, _, hBetaG2, hRun⟩ := decode_bind_spelled hRun
    obtain ⟨gammaG2, _, hGammaG2, hRun⟩ := decode_bind_spelled hRun
    obtain ⟨deltaG2, _, hDeltaG2, hRun⟩ := decode_bind_spelled hRun
    obtain ⟨gammaAbcG1, _, hGammaAbcG1, hRun⟩ := decode_bind_spelled hRun
    obtain ⟨digest, _, hDigest, hRun⟩ := decode_bind_spelled hRun
    obtain ⟨rfl, rfl⟩ := run_pure_eq_ok.mp hRun
    exact hAlphaG1.mul hBetaG2 |>.mul hGammaG2 |>.mul hDeltaG2 |>.mul
      hGammaAbcG1 |>.mul hDigest

/-! ## Artifacts with one spelling -/

private theorem PublicInputs.oneSpelling {p : Nat} (inputs : PublicInputs p) :
    Artifact.OneSpelling inputs :=
  Codec.OneSpelling.list fun a _ => .of_exact a

private theorem Proof.oneSpelling {proof : Proof G₁ G₂}
    (hG1 : ∀ a ∈ proof.pointsG1, OneSpelling a)
    (hG2 : ∀ a ∈ proof.pointsG2, OneSpelling a) :
    Artifact.OneSpelling proof := by
  have hAr : Codec.spellings proof.ar = _ := hG1 _ (by simp [pointsG1])
  have hBs : Codec.spellings proof.bs = _ := hG2 _ (by simp [pointsG2])
  have hKrs : Codec.spellings proof.krs = _ := hG1 _ (by simp [pointsG1])
  show proof.spellings = _
  unfold spellings
  simp only [hAr, hBs, hKrs, singleton_mul_singleton]
  rfl

private theorem ProvingKey.oneSpelling {key : ProvingKey G₁ G₂}
    (hG1 : ∀ a ∈ key.pointsG1, OneSpelling a)
    (hG2 : ∀ a ∈ key.pointsG2, OneSpelling a) :
    Artifact.OneSpelling key := by
  have hAlpha : Codec.spellings key.alphaG1 = _ := hG1 _ (by simp [pointsG1])
  have hBeta : Codec.spellings key.betaG1 = _ := hG1 _ (by simp [pointsG1])
  have hBetaG2 : Codec.spellings key.betaG2 = _ := hG2 _ (by simp [pointsG2])
  have hDelta : Codec.spellings key.deltaG1 = _ := hG1 _ (by simp [pointsG1])
  have hDeltaG2 : Codec.spellings key.deltaG2 = _ := hG2 _ (by simp [pointsG2])
  have hA : Codec.spellings key.aG1 = _ :=
    OneSpelling.list fun a ha => hG1 a (by simp [pointsG1, ha])
  have hB : Codec.spellings key.bG1 = _ :=
    OneSpelling.list fun a ha => hG1 a (by simp [pointsG1, ha])
  have hBG2 : Codec.spellings key.bG2 = _ :=
    OneSpelling.list fun a ha => hG2 a (by simp [pointsG2, ha])
  have hZ : Codec.spellings key.zG1 = _ :=
    OneSpelling.list fun a ha => hG1 a (by simp [pointsG1, ha])
  have hK : Codec.spellings key.kG1 = _ :=
    OneSpelling.list fun a ha => hG1 a (by simp [pointsG1, ha])
  have hNumPublic : Codec.spellings key.numPublic = _ :=
    OneSpelling.of_exact key.numPublic
  have hDigest : Codec.spellings key.digest = _ :=
    OneSpelling.of_exact key.digest
  show key.spellings = _
  unfold spellings
  simp only [hAlpha, hBeta, hBetaG2, hDelta, hDeltaG2, hA, hB, hBG2, hZ, hK,
    hNumPublic, hDigest, singleton_mul_singleton]
  rfl

private theorem VerifyingKey.oneSpelling {key : VerifyingKey G₁ G₂}
    (hG1 : ∀ a ∈ key.pointsG1, OneSpelling a)
    (hG2 : ∀ a ∈ key.pointsG2, OneSpelling a) :
    Artifact.OneSpelling key := by
  have hAlpha : Codec.spellings key.alphaG1 = _ := hG1 _ (by simp [pointsG1])
  have hBeta : Codec.spellings key.betaG2 = _ := hG2 _ (by simp [pointsG2])
  have hGamma : Codec.spellings key.gammaG2 = _ := hG2 _ (by simp [pointsG2])
  have hDelta : Codec.spellings key.deltaG2 = _ := hG2 _ (by simp [pointsG2])
  have hAbc : Codec.spellings key.gammaAbcG1 = _ :=
    OneSpelling.list fun a ha => hG1 a (by simp [pointsG1, ha])
  have hDigest : Codec.spellings key.digest = _ :=
    OneSpelling.of_exact key.digest
  show key.spellings = _
  unfold spellings
  simp only [hAlpha, hBeta, hGamma, hDelta, hAbc, hDigest,
    singleton_mul_singleton]
  rfl

/-! ## All four kinds -/

/-- What the encodings over two groups and a field come to. The predicates
single out points with one spelling. -/
structure CanonicalEncodings (p : Nat) (Plain₁ : G₁ → Prop)
    (Plain₂ : G₂ → Prop) : Prop where
  publicInputs : ∀ bytes, ∀ inputs : PublicInputs p,
    Artifact.ofBytes bytes = .ok inputs →
    Artifact.EnvelopeOf inputs bytes ∧
      (bytes.length = (Artifact.toBytes inputs).length →
        bytes = Artifact.toBytes inputs)
  proof : ∀ bytes, ∀ proof : Proof G₁ G₂, Artifact.ofBytes bytes = .ok proof →
    Artifact.EnvelopeOf proof bytes ∧
      ((∀ a ∈ proof.pointsG1, Plain₁ a) → (∀ a ∈ proof.pointsG2, Plain₂ a) →
        bytes.length = (Artifact.toBytes proof).length →
          bytes = Artifact.toBytes proof)
  provingKey : ∀ bytes, ∀ key : ProvingKey G₁ G₂,
    Artifact.ofBytes bytes = .ok key →
    Artifact.EnvelopeOf key bytes ∧
      ((∀ a ∈ key.pointsG1, Plain₁ a) → (∀ a ∈ key.pointsG2, Plain₂ a) →
        bytes.length = (Artifact.toBytes key).length →
          bytes = Artifact.toBytes key)
  verifyingKey : ∀ bytes, ∀ key : VerifyingKey G₁ G₂,
    Artifact.ofBytes bytes = .ok key →
    Artifact.EnvelopeOf key bytes ∧
      ((∀ a ∈ key.pointsG1, Plain₁ a) → (∀ a ∈ key.pointsG2, Plain₂ a) →
        bytes.length = (Artifact.toBytes key).length →
          bytes = Artifact.toBytes key)

/-- Encodings over groups whose points are read from their spellings. -/
private theorem CanonicalEncodings.of_oneSpelling {p : Nat} {Plain₁ : G₁ → Prop}
    {Plain₂ : G₂ → Prop} (hPlain₁ : ∀ a, Plain₁ a → OneSpelling a)
    (hPlain₂ : ∀ a, Plain₂ a → OneSpelling a) :
    CanonicalEncodings p Plain₁ Plain₂ where
  publicInputs bytes inputs h := by
    have hEnvelope := Artifact.envelope_of_ofBytes h
    exact ⟨hEnvelope, hEnvelope.eq_toBytes inputs.oneSpelling⟩
  proof bytes proof h := by
    have hEnvelope := Artifact.envelope_of_ofBytes h
    refine ⟨hEnvelope, fun hG1 hG2 => hEnvelope.eq_toBytes ?_⟩
    exact Proof.oneSpelling (fun a ha => hPlain₁ a (hG1 a ha)) fun a ha =>
      hPlain₂ a (hG2 a ha)
  provingKey bytes key h := by
    have hEnvelope := Artifact.envelope_of_ofBytes h
    refine ⟨hEnvelope, fun hG1 hG2 => hEnvelope.eq_toBytes ?_⟩
    exact ProvingKey.oneSpelling (fun a ha => hPlain₁ a (hG1 a ha))
      fun a ha => hPlain₂ a (hG2 a ha)
  verifyingKey bytes key h := by
    have hEnvelope := Artifact.envelope_of_ofBytes h
    refine ⟨hEnvelope, fun hG1 hG2 => hEnvelope.eq_toBytes ?_⟩
    exact VerifyingKey.oneSpelling (fun a ha => hPlain₁ a (hG1 a ha))
      fun a ha => hPlain₂ a (hG2 a ha)

/-- An artifact is read from envelopes only whose contents begin with a spelling
of it, and from no bytes but its own among those of the same length if its
points have one spelling each. These are all points but infinity on BN254, and
all points on BLS12-381. -/
theorem Artifact.encodings_canonical :
    (∀ {G₁ G₂ : Type} [Codec G₁] [Codec G₂] [SpelledCodec G₁]
      [SpelledCodec G₂] (p : Nat), CanonicalEncodings p
        (Codec.OneSpelling : G₁ → Prop) (Codec.OneSpelling : G₂ → Prop)) ∧
    CanonicalEncodings Bn254.r (fun a : Point (Fp Bn254.q) => a ≠ .infinity)
      (fun a : Point (Fp2 Bn254.q) => a ≠ .infinity) ∧
    CanonicalEncodings Bls12381.r (fun _ : Point (Fp Bls12381.q) => True)
      (fun _ : Point (Fp2 Bls12381.q) => True) :=
  ⟨fun _ => .of_oneSpelling (fun _ h => h) fun _ h => h,
    .of_oneSpelling (fun _ => Bn254.oneSpelling_of_ne_infinity)
      fun _ => Bn254.oneSpelling_of_ne_infinity,
    .of_oneSpelling (fun a _ => Bls12381.oneSpelling a) fun a _ =>
      Bls12381.oneSpelling a⟩

namespace Bls12381

/-- A verifying key for one input. -/
def plainVerifyingKey : VerifyingKey (Point (Fp q)) (Point (Fp2 q)) where
  alphaG1 := Curve.generator
  betaG2 := .infinity
  gammaG2 := .infinity
  deltaG2 := .infinity
  gammaAbcG1 := [.infinity, Curve.generator]
  digest := Vector.replicate 32 255

private theorem roundTrips_generator :
    RoundTrips (Curve.generator : Point (Fp q)) :=
  roundTrips_affine (by decide +kernel) (by decide +kernel)

private theorem plainVerifyingKey_storable : plainVerifyingKey.Storable where
  pointsG1 := by
    simp [plainVerifyingKey, VerifyingKey.pointsG1, roundTrips_generator,
      roundTrips_infinity]
  pointsG2 := by
    simp [plainVerifyingKey, VerifyingKey.pointsG2, roundTrips_infinity]
  gammaAbcG1 := ⟨by decide +kernel, by decide⟩
  contents := by
    decide +kernel

/-- The key is read from its bytes, and from no others of their length. -/
theorem encodings_canonical_verifyingKey :
    Artifact.ofBytes (Artifact.toBytes plainVerifyingKey) =
      .ok plainVerifyingKey ∧
      Artifact.EnvelopeOf plainVerifyingKey
        (Artifact.toBytes plainVerifyingKey) ∧
      ∀ bytes, Artifact.ofBytes bytes = .ok plainVerifyingKey →
        bytes.length = (Artifact.toBytes plainVerifyingKey).length →
          bytes = Artifact.toBytes plainVerifyingKey := by
  have hRead : Artifact.ofBytes (Artifact.toBytes plainVerifyingKey) =
      .ok plainVerifyingKey :=
    (Artifact.read_back_of_contents plainVerifyingKey_storable.contents
      plainVerifyingKey_storable.run_decode).1
  have hCanonical := Artifact.encodings_canonical.2.2.verifyingKey
  refine ⟨hRead, (hCanonical _ plainVerifyingKey hRead).1,
    fun bytes hBytes hLength => ?_⟩
  exact (hCanonical bytes plainVerifyingKey hBytes).2 (fun _ _ =>
    trivial) (fun _ _ => trivial) hLength

end Bls12381

namespace Bn254

/-- Infinity on both curves, three times. -/
def emptyProof : Proof (Point (Fp q)) (Point (Fp2 q)) :=
  ⟨.infinity, .infinity, .infinity⟩

private theorem emptyProof_storable : emptyProof.Storable where
  pointsG1 := by simp [emptyProof, Proof.pointsG1, roundTrips_infinity]
  pointsG2 := by simp [emptyProof, Proof.pointsG2, roundTrips_infinity]
  contents := by decide +kernel

/-- The contents for three times infinity, and one more byte. -/
def longContents : List UInt8 := Artifact.encode emptyProof ++ [0]

/-- The contents for three times infinity, but for the first coordinate of the
first one. -/
def otherContents : List UInt8 :=
  MarkedCoordinate.encode (1 : Fp q) .infinity ++ Codec.encode (Point.infinity :
    Point (Fp2 q)) ++ Codec.encode (Point.infinity : Point (Fp q))

/-- The bytes of contents in the envelope of a proof. -/
def proofEnvelope (contents : List UInt8) : List UInt8 :=
  Envelope.pack (Artifact.magic (Proof (Point (Fp q)) (Point (Fp2 q))))
    Artifact.formatVersion contents

/-- Infinity is read with any first coordinate. -/
private theorem decode_infinity (x : Fp q) (rest : List UInt8) :
    (Codec.decode (Point (Fp q))).run (MarkedCoordinate.encode x .infinity ++
      rest) =
      .ok (.infinity, rest) :=
  decode_eq_ok.mpr ⟨read_eq_ok.mpr ⟨x, .infinity, rfl, rfl⟩,
    Curve.inSubgroup_infinity⟩

private theorem run_decode_otherContents :
    (Artifact.decode :
      Decoder (Proof (Point (Fp q)) (Point (Fp2 q)))).run otherContents =
      .ok (emptyProof, []) := by
  rw [← List.append_nil otherContents]
  simp only [otherContents, Artifact.decode, List.append_assoc]
  rw [run_decode_bind (decode_infinity 1 _),
    roundTrips_infinity.run_decode_bind, roundTrips_infinity.run_decode_bind]
  rfl

/-- A proof is read from bytes that are not its own: the contents may be longer,
and infinity may have another first coordinate. -/
theorem not_encodings_canonical :
    (Artifact.ofBytes (proofEnvelope longContents) = .ok emptyProof ∧
      Artifact.toBytes emptyProof ≠ proofEnvelope longContents) ∧
    Artifact.ofBytes (proofEnvelope otherContents) = .ok emptyProof ∧
      Artifact.toBytes emptyProof ≠ proofEnvelope otherContents := by
  have hLong : longContents.length < 2 ^ 64 := by decide +kernel
  have hOther : otherContents.length < 2 ^ 64 := by decide +kernel
  have hEmpty := emptyProof_storable.contents
  refine ⟨⟨?_, fun hSame => ?_⟩, ?_, fun hSame => ?_⟩
  · exact Artifact.ofBytes_eq_ok.mpr
      ⟨longContents, [0], rfl, hLong, emptyProof_storable.run_decode [0]⟩
  · have hContents := Envelope.pack_inj hEmpty hLong hSame
    exact absurd hContents (by decide +kernel)
  · exact Artifact.ofBytes_eq_ok.mpr
      ⟨otherContents, [], rfl, hOther, run_decode_otherContents⟩
  · have hContents := Envelope.pack_inj hEmpty hOther hSame
    exact absurd hContents (by decide +kernel)

end Bn254

end RankOne
