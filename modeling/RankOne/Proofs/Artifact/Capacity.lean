import RankOne.Proofs.Artifact.Opening
import RankOne.Proofs.Bytes.Capacity
import RankOne.Curve.Bls12381
import RankOne.Curve.Bn254

/-!
# Which bytes end in a fault

The length of the contents of an envelope is checked, but the lengths of the
lists inside are not. Bytes that are read as an artifact end in a fault exactly
if they are an envelope of its kind and all that is read in front of some list
is in order, but that list declares more items than there can be room for. All
other bytes end with an artifact or with an error. A proof has no lists, so that
nothing that is read as a proof is a fault.
-/

namespace RankOne

open Codec Decoder

/-! ## Points -/

namespace Bn254

private theorem faultsOn_readMarked : readMarked.FaultsOn ∅ := by
  refine (faultsOn_blockOr .unexpectedEnd 32).bind_free fun bytes => ?_
  dsimp only
  split
  · exact faultsOn_fail .unexpectedFlags
  · exact (faultsOn_require _).bind_free fun _ => faultsOn_pure _

variable {K : Type} [CoordinateField K] [Curve K] [MarkedCoordinate K]

private theorem faultFree_point
    (h : (MarkedCoordinate.read : Decoder (K × Mark)).FaultsOn ∅) :
    FaultFreeCodec (Point K) where
  read_faultsOn := h.bind_free fun _ => faultsOn_require _

instance : FaultFreeCodec (Point (Fp q)) := faultFree_point faultsOn_readMarked

instance : FaultFreeCodec (Point (Fp2 q)) :=
  faultFree_point <| FaultFreeCodec.read_faultsOn.bind_free fun _ =>
    faultsOn_readMarked.bind_free fun _ => faultsOn_pure _

end Bn254

namespace Bls12381

private theorem Flags.faultsOn_check (flags : Flags) :
    flags.check.FaultsOn ∅ := by
  unfold Flags.check
  split
  · exact faultsOn_fail .invalidData
  · split
    · exact faultsOn_fail .unexpectedFlags
    · exact faultsOn_pure ()

variable {K : Type} [CoordinateField K] [Curve K] [FlaggedCoordinate K]

instance : FaultFreeCodec (Point K) where
  read_faultsOn :=
    (faultsOn_blockOr .invalidData (FlaggedCoordinate.size K)).bind_free
      fun bytes => (flagsOf bytes).faultsOn_check.bind_free
        fun _ => (faultsOn_require _).bind_free fun _ => faultsOn_require _

end Bls12381

/-! ## Artifacts -/

namespace Artifact

/-- The faults of an artifact are those of the contents of an envelope of its
kind. -/
theorem ofBytes_eq_fault {α : Type} [Artifact α] {bad : Set (List UInt8)}
    (h : (decode : Decoder α).FaultsOn bad) {bytes : List UInt8}
    {cause : Fault} :
    (ofBytes bytes : Outcome ArtifactError α) = .error (.fault cause) ↔
      cause = .capacityOverflow ∧ ∃ payload ∈ bad,
        bytes = Envelope.pack (magic α) formatVersion payload ∧
          payload.length < 2 ^ 64 := by
  have hContents : ∀ payload, (ofContents payload : Outcome ArtifactError α) =
      .error (.fault cause) ↔ cause = .capacityOverflow ∧ payload ∈ bad := by
    intro payload
    rw [← h payload cause]
    unfold ofContents
    cases (decode : Decoder α).run payload with
    | ok result =>
        exact iff_of_false (fun hFault => by cases hFault) fun hFault => by
          cases hFault
    | error failure =>
        cases failure with
        | reported e =>
            exact iff_of_false (fun hFault => by cases hFault) fun hFault => by
              cases hFault
        | fault cause' =>
            show (Except.error (Failure.fault cause') :
              Outcome ArtifactError α) = _ ↔ _
            rw [Except.error.injEq, Except.error.injEq, Failure.fault.injEq,
              Failure.fault.injEq]
  unfold ofBytes
  cases hOpen : Envelope.unpack (magic α) formatVersion bytes with
  | error cause' =>
      refine iff_of_false (fun hFault => by cases hFault) ?_
      rintro ⟨-, payload, -, hEnvelope⟩
      rw [Envelope.unpack_eq_ok.mpr hEnvelope] at hOpen
      cases hOpen
  | ok payload =>
      show ofContents payload = _ ↔ _
      rw [hContents]
      refine and_congr_right fun _ => ⟨fun hBad => ?_, ?_⟩
      · exact ⟨payload, hBad, Envelope.unpack_eq_ok.mp hOpen⟩
      · rintro ⟨payload', hBad, hEnvelope⟩
        rw [Envelope.unpack_eq_ok.mpr hEnvelope] at hOpen
        injection hOpen with hSame
        exact hSame ▸ hBad

section Kinds

variable (p : Nat) (G₁ G₂ : Type) [Codec G₁] [Codec G₂]

/-- The contents of each kind in which a list asks for too much room, after all
that is in front of the list has been read. -/
def Kind.oversized : Kind → Set (List UInt8)
  | .proof => ∅
  | .publicInputs => Codec.oversized (Fp p)
  | .verifyingKey =>
      (Codec.decode G₁).leaving <| (Codec.decode G₂).leaving <|
        (Codec.decode G₂).leaving <|
        (Codec.decode G₂).leaving <| Codec.oversized G₁
  | .provingKey =>
      (Codec.decode G₁).leaving <| (Codec.decode G₁).leaving <|
        (Codec.decode G₂).leaving <|
        (Codec.decode G₁).leaving <| (Codec.decode G₂).leaving <|
          Codec.oversized G₁ ∪ ((Codec.decode (List G₁)).leaving <|
          Codec.oversized G₁ ∪ ((Codec.decode (List G₁)).leaving <|
          Codec.oversized G₂ ∪ ((Codec.decode (List G₂)).leaving <|
          Codec.oversized G₁ ∪
            ((Codec.decode (List G₁)).leaving <| Codec.oversized G₁))))

private theorem Kind.faultsOn_decode [FaultFreeCodec G₁] [FaultFreeCodec G₂]
    (kind : Kind) :
    (decode : Decoder (kind.Values p G₁ G₂)).FaultsOn
      (kind.oversized p G₁ G₂) := by
  cases kind with
  | proof =>
      exact faultsOn_value.bind_free fun _ => faultsOn_value.bind_free fun _ =>
        faultsOn_value.bind_free fun _ => faultsOn_pure _
  | publicInputs => exact faultsOn_list.bind_free fun _ => faultsOn_pure _
  | verifyingKey =>
      exact faultsOn_value.bind_of_free fun _ =>
        faultsOn_value.bind_of_free fun _ =>
        faultsOn_value.bind_of_free fun _ =>
          faultsOn_value.bind_of_free fun _ =>
        faultsOn_list.bind_free fun _ => faultsOn_value.bind_free fun _ =>
          faultsOn_pure _
  | provingKey =>
      exact faultsOn_value.bind_of_free fun _ =>
        faultsOn_value.bind_of_free fun _ =>
        faultsOn_value.bind_of_free fun _ =>
          faultsOn_value.bind_of_free fun _ =>
        faultsOn_value.bind_of_free fun _ => faultsOn_list.bind fun _ =>
          faultsOn_list.bind fun _ =>
        faultsOn_list.bind fun _ => faultsOn_list.bind fun _ =>
          faultsOn_list.bind_free fun _ =>
        faultsOn_value.bind_free fun _ => faultsOn_value.bind_free fun _ =>
          faultsOn_pure _

/-- The bytes are an envelope of a kind, and a list in it asks for too much
room. -/
def Kind.Overdeclares (kind : Kind) (bytes : List UInt8) : Prop :=
  ∃ payload ∈ kind.oversized p G₁ G₂,
    bytes = Envelope.pack (magic (kind.Values p G₁ G₂)) formatVersion payload ∧
      payload.length < 2 ^ 64

/-- How reading a byte string as a kind of artifact ends. -/
structure Kind.Answers (kind : Kind) (bytes : List UInt8) : Prop where
  fault : ∀ cause,
    (ofBytes bytes : Outcome ArtifactError (kind.Values p G₁ G₂)) =
    .error (.fault cause) ↔ cause = .capacityOverflow ∧
      kind.Overdeclares p G₁ G₂ bytes
  answer : ((∃ a : kind.Values p G₁ G₂, ofBytes bytes = .ok a) ∨
    ∃ e, (ofBytes bytes : Outcome ArtifactError (kind.Values p G₁ G₂)) =
      Outcome.report e) ↔
      ¬ kind.Overdeclares p G₁ G₂ bytes

variable {p G₁ G₂}

private theorem Kind.answers [FaultFreeCodec G₁] [FaultFreeCodec G₂]
    (kind : Kind) (bytes : List UInt8) :
    kind.Answers p G₁ G₂ bytes := by
  have hFault : ∀ cause,
      (ofBytes bytes : Outcome ArtifactError (kind.Values p G₁ G₂)) =
      .error (.fault cause) ↔ cause = .capacityOverflow ∧
        kind.Overdeclares p G₁ G₂ bytes :=
    fun _ => ofBytes_eq_fault (kind.faultsOn_decode p G₁ G₂)
  refine ⟨hFault, ?_⟩
  constructor
  · rintro hAnswer hOver
    have hRun := (hFault .capacityOverflow).mpr ⟨rfl, hOver⟩
    rcases hAnswer with ⟨a, hAnswer⟩ | ⟨e, hAnswer⟩ <;> rw [hRun] at hAnswer <;>
      cases hAnswer
  · intro hModest
    cases hRun :
      (ofBytes bytes : Outcome ArtifactError (kind.Values p G₁ G₂)) with
    | ok a => exact Or.inl ⟨a, rfl⟩
    | error failure =>
        cases failure with
        | reported e => exact Or.inr ⟨e, rfl⟩
        | fault cause => exact absurd ((hFault cause).mp hRun).2 hModest

end Kinds

/-- Whatever bytes are read as whatever kind of artifact, on either curve: they
end in a fault if they are an envelope of the kind in which a list asks for more
room than there can be, and with an artifact or an error if they are not. -/
theorem faults_exact (kind : Kind) (bytes : List UInt8) :
    kind.Answers Bn254.r (Point (Fp Bn254.q)) (Point (Fp2 Bn254.q)) bytes ∧
      kind.Answers Bls12381.r (Point (Fp Bls12381.q))
        (Point (Fp2 Bls12381.q)) bytes :=
  ⟨kind.answers bytes, kind.answers bytes⟩

/-- An envelope of public inputs whose contents say that there are `2 ^ 58` of
them, and end. -/
def boastfulInputs : List UInt8 :=
  Envelope.pack (magic (PublicInputs Bn254.r)) formatVersion
    (littleEndian 8 (2 ^ 58))

/-- They are a fault, and neither public inputs nor an error. -/
theorem not_answers_boastfulInputs :
    (ofBytes boastfulInputs : Outcome ArtifactError (PublicInputs Bn254.r)) =
        Outcome.abandon .capacityOverflow ∧
      (∀ inputs : PublicInputs Bn254.r, ofBytes boastfulInputs ≠ .ok inputs) ∧
      ∀ e, (ofBytes boastfulInputs :
        Outcome ArtifactError (PublicInputs Bn254.r)) ≠ Outcome.report e := by
  have hOversized : littleEndian 8 (2 ^ 58) ∈ Codec.oversized (Fp Bn254.r) :=
    ⟨2 ^ 58, by decide, by decide +kernel, [], (List.append_nil _).symm⟩
  have hFault :
      (ofBytes boastfulInputs : Outcome ArtifactError (PublicInputs Bn254.r)) =
        Outcome.abandon .capacityOverflow :=
    (ofBytes_eq_fault (faultsOn_list.bind_free fun _ => faultsOn_pure _)).mpr
      ⟨rfl, _, hOversized, rfl, by rw [length_littleEndian]; decide⟩
  refine ⟨hFault, fun inputs h => ?_, fun e h => ?_⟩
  · rw [hFault] at h
    cases h
  · rw [hFault] at h
    cases h

end Artifact

end RankOne
