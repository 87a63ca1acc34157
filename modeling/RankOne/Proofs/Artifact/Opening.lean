import RankOne.Proofs.Artifact.Contents

/-!
# How opening an envelope ends

Every byte string is too short, or ends in a digest that is not that of the
rest, or is an envelope with some kind, some version and some declared length.
Opening tells these apart in a fixed order and reads no byte that is not there,
so that each byte string has one ending. Since the kinds of artifacts differ in
their magic bytes, no envelope of one kind is opened as one of another.

## Main results

* `Envelope.unpack_iff` — the byte strings behind each ending;
* `Envelope.unpackSliced_eq` — no byte beyond the end is read;
* `Artifact.ofBytes_otherKind` — an envelope of one kind is not opened as
  another;
* `Artifact.opening_exact` — all of this, for every label.
-/

namespace RankOne

namespace Envelope

variable {magic : Magic} {version : UInt32} {bytes payload : List UInt8}

/-! ## Endings -/

/-- A header that declares some length, and contents. -/
def framed (magic : Magic) (version : UInt32) (declared : UInt64)
    (payload : List UInt8) : List UInt8 :=
  magic.toList ++
    (littleEndian 4 version.toNat ++ (littleEndian 8 declared.toNat ++ payload))

/-- Bytes followed by their digest. -/
def withDigest (front : List UInt8) : List UInt8 :=
  front ++ (sha256 front).toList

/-- The ending that opening a byte string should come to. What is wrong is named
in the order in which the constructors stand. -/
inductive Opens (magic : Magic) (version : UInt32) :
    List UInt8 → Except Error (List UInt8) → Prop where
  | tooShort {bytes : List UInt8}
      (short : bytes.length < headerLength + digestLength) :
      Opens magic version bytes (.error .tooShort)
  | tampered {front digest : List UInt8} (long : headerLength ≤ front.length)
      (width : digest.length = digestLength)
      (differs : digest ≠ (sha256 front).toList) :
      Opens magic version
        (front ++ digest) (.error (.digestMismatch (sha256 front) digest))
  | otherMagic {magic' : Magic} {version' : UInt32}
      {declared : UInt64} {payload : List UInt8}
      (differs : magic' ≠ magic) :
      Opens magic version (withDigest (framed magic' version' declared payload))
        (.error .wrongMagic)
  | otherVersion {version' : UInt32} {declared : UInt64} {payload : List UInt8}
      (differs : version' ≠ version) :
      Opens magic version (withDigest (framed magic version' declared payload))
        (.error (.wrongVersion version'.toNat version))
  | otherLength {declared : UInt64} {payload : List UInt8}
      (differs : declared.toNat ≠ payload.length) :
      Opens magic version (withDigest (framed magic version declared payload))
        (.error (.wrongLength declared.toNat payload.length))
  | sound {payload : List UInt8} (fits : payload.length < 2 ^ 64) :
      Opens magic version (pack magic version payload) (.ok payload)

/-! ## Byte strings taken apart -/

private theorem length_framed {declared : UInt64} :
    (framed magic version declared payload).length =
      headerLength + payload.length := by
  simp only [framed, List.length_append, Vector.length_toList,
    length_littleEndian, headerLength]
  omega

/-- Contents whose length is a word are put behind a header that declares it. -/
private theorem pack_eq_withDigest (h : payload.length < 2 ^ 64) :
    pack magic version payload =
      withDigest
        (framed magic version (UInt64.ofNat payload.length) payload) := by
  have hWord : (UInt64.ofNat payload.length).toNat = payload.length := by
    rw [UInt64.toNat_ofNat', Nat.mod_eq_of_lt h]
  show withDigest (signed magic version payload) = _
  unfold signed framed
  rw [hWord, List.append_assoc, List.append_assoc]

/-- Bytes that are long enough have a header, whatever it says. -/
private theorem exists_framed {front : List UInt8}
    (h : headerLength ≤ front.length) :
    ∃ magic version declared payload,
      front = framed magic version declared payload := by
  have hLong : 16 ≤ front.length := h
  have hFirst : (front.take 4).length = 4 := by
    rw [List.length_take]
    omega
  have hSecond : ((front.drop 4).take 4).length = 4 := by
    rw [List.length_take, List.length_drop]
    omega
  have hThird : ((front.drop 8).take 8).length = 8 := by
    rw [List.length_take, List.length_drop]
    omega
  have hVersion : ofLittleEndian ((front.drop 4).take 4) < 2 ^ 32 := by
    have hBound := ofLittleEndian_lt ((front.drop 4).take 4)
    rwa [hSecond] at hBound
  have hDeclared : ofLittleEndian ((front.drop 8).take 8) < 2 ^ 64 := by
    have hBound := ofLittleEndian_lt ((front.drop 8).take 8)
    rwa [hThird] at hBound
  refine ⟨⟨(front.take 4).toArray, hFirst⟩,
    UInt32.ofNat (ofLittleEndian ((front.drop 4).take 4)),
    UInt64.ofNat (ofLittleEndian ((front.drop 8).take 8)),
    front.drop headerLength, ?_⟩
  unfold framed
  rw [UInt32.toNat_ofNat', UInt64.toNat_ofNat', Nat.mod_eq_of_lt hVersion,
    Nat.mod_eq_of_lt hDeclared,
      ← (eq_littleEndian_iff hVersion).mpr ⟨hSecond, rfl⟩,
    ← (eq_littleEndian_iff hDeclared).mpr ⟨hThird, rfl⟩]
  exact header_append front

/-- Bytes that are not too short are the front of an envelope and a digest. -/
private theorem exists_cut (h : headerLength + digestLength ≤ bytes.length) :
    ∃ front digest, bytes = front ++ digest ∧ headerLength ≤ front.length ∧
      digest.length = digestLength := by
  refine ⟨bytes.take (bytes.length - digestLength),
    bytes.drop (bytes.length - digestLength),
    (List.take_append_drop _ _).symm, ?_, ?_⟩
  · rw [List.length_take]
    omega
  · rw [List.length_drop]
    omega

/-- Every byte string has an ending. -/
private theorem exists_opens (magic : Magic) (version : UInt32)
    (bytes : List UInt8) :
    ∃ result, Opens magic version bytes result := by
  by_cases hShort : bytes.length < headerLength + digestLength
  · exact ⟨_, .tooShort hShort⟩
  obtain ⟨front, digest, rfl, hFront, hWidth⟩ :=
    exists_cut (Nat.not_lt.mp hShort)
  by_cases hDigest : digest = (sha256 front).toList
  · rw [hDigest, ← withDigest]
    obtain ⟨magic', version', declared, payload, rfl⟩ := exists_framed hFront
    by_cases hMagic : magic' = magic
    · subst hMagic
      by_cases hVersion : version' = version
      · subst hVersion
        by_cases hDeclared : declared.toNat = payload.length
        · have hFits : payload.length < 2 ^ 64 := hDeclared ▸ declared.toNat_lt
          refine ⟨.ok payload, ?_⟩
          rw [← UInt64.ofNat_toNat (x := declared), hDeclared,
            ← pack_eq_withDigest hFits]
          exact .sound hFits
        · exact ⟨_, .otherLength hDeclared⟩
      · exact ⟨_, .otherVersion hVersion⟩
    · exact ⟨_, .otherMagic hMagic⟩
  · exact ⟨_, .tampered hFront hWidth hDigest⟩

/-! ## Opening -/

/-- Behind a header, the checks are made on what it says. -/
private theorem unpackSigned_framed {magic' : Magic} {version' : UInt32}
    {declared : UInt64} :
    unpackSigned magic version (framed magic' version' declared payload) =
      if magic' ≠ magic then .error .wrongMagic
      else if version' ≠ version then
        .error (.wrongVersion version'.toNat version)
      else if declared.toNat ≠ payload.length then
        .error (.wrongLength declared.toNat payload.length)
      else .ok payload := by
  obtain ⟨hFirst, hSecond, hThird, hContents⟩ :=
    header_parts magic'.length_toList
      (length_littleEndian 4 version'.toNat)
        (length_littleEndian 8 declared.toNat)
      (rfl : framed magic' version' declared payload = _)
  have hVersion :
      ofLittleEndian (littleEndian 4 version'.toNat) = version'.toNat := by
    rw [ofLittleEndian_littleEndian]
    exact Nat.mod_eq_of_lt version'.toNat_lt
  have hDeclared :
      ofLittleEndian (littleEndian 8 declared.toNat) = declared.toNat := by
    rw [ofLittleEndian_littleEndian]
    exact Nat.mod_eq_of_lt declared.toNat_lt
  unfold unpackSigned
  simp only [hFirst, hSecond, hThird, hContents, hVersion, hDeclared, ne_eq,
    Vector.toList_inj, UInt32.toNat_inj]

/-- The digest is told from what it is taken of by its length. -/
private theorem unpack_append {front digest : List UInt8}
    (hFront : headerLength ≤ front.length)
    (hWidth : digest.length = digestLength) :
    unpack magic version (front ++ digest) =
      if digest ≠ (sha256 front).toList then
        .error (.digestMismatch (sha256 front) digest)
      else unpackSigned magic version front := by
  have hLength : (front ++ digest).length - digestLength = front.length := by
    rw [List.length_append, hWidth, Nat.add_sub_cancel]
  have hLong : ¬ (front ++ digest).length < headerLength + digestLength := by
    rw [List.length_append, hWidth]
    omega
  unfold unpack
  rw [if_neg hLong]
  simp only [hLength, List.take_left, List.drop_left]

private theorem unpack_withDigest {front : List UInt8}
    (h : headerLength ≤ front.length) :
    unpack magic version (withDigest front) =
      unpackSigned magic version front := by
  rw [withDigest, unpack_append h (by rw [Vector.length_toList]; rfl),
    if_neg (not_not_intro rfl)]

/-- An envelope of another kind is recognised by its magic bytes, whatever its
contents. -/
private theorem unpack_pack_of_ne {magic' : Magic} {version' : UInt32}
    (h : magic' ≠ magic) :
    unpack magic version (pack magic' version' payload) =
      .error .wrongMagic := by
  have hHeader : headerLength ≤ (signed magic' version' payload).length := by
    rw [length_signed]
    exact Nat.le_add_right _ _
  have hMagic : (signed magic' version' payload).take 4 = magic'.toList := by
    unfold signed
    rw [List.append_assoc, List.append_assoc]
    exact List.take_left' magic'.length_toList
  show unpack magic version (withDigest (signed magic' version' payload)) = _
  rw [unpack_withDigest hHeader]
  unfold unpackSigned
  rw [hMagic]
  exact if_pos fun hSame => h (Vector.toList_inj.mp hSame)

/-- Opening a byte string ends as it should. -/
private theorem unpack_of_opens {result : Except Error (List UInt8)}
    (h : Opens magic version bytes result) :
    unpack magic version bytes = result := by
  have hFramed : ∀ (magic' : Magic) (version' : UInt32)
      (declared : UInt64) (payload : List UInt8),
      headerLength ≤ (framed magic' version' declared payload).length := by
    intro magic' version' declared payload
    rw [length_framed]
    exact Nat.le_add_right _ _
  cases h with
  | tooShort hShort => exact if_pos hShort
  | tampered hLong hWidth hDiffers =>
    rw [unpack_append hLong hWidth, if_pos hDiffers]
  | otherMagic hDiffers =>
      rw [unpack_withDigest (hFramed _ _ _ _), unpackSigned_framed,
        if_pos hDiffers]
  | otherVersion hDiffers =>
      rw [unpack_withDigest (hFramed _ _ _ _), unpackSigned_framed,
        if_neg (not_not_intro rfl), if_pos hDiffers]
  | otherLength hDiffers =>
      rw [unpack_withDigest (hFramed _ _ _ _), unpackSigned_framed,
        if_neg (not_not_intro rfl), if_neg (not_not_intro rfl), if_pos hDiffers]
  | sound hFits => exact unpack_eq_ok.mpr ⟨rfl, hFits⟩

/-- Opening ends in one way and no other. -/
theorem unpack_iff {result : Except Error (List UInt8)} :
    unpack magic version bytes = result ↔ Opens magic version bytes result := by
  constructor
  · rintro rfl
    obtain ⟨result, hOpens⟩ := exists_opens magic version bytes
    rw [unpack_of_opens hOpens]
    exact hOpens
  · exact unpack_of_opens

/-! ## Reading in bounds -/

/-- The bytes between two positions, where it is a fault if one of them is out
of range. -/
def slice (bytes : List UInt8) (start stop : Nat) :
    Outcome Error (List UInt8) :=
  if start ≤ stop ∧ stop ≤ bytes.length then .ok ((bytes.take stop).drop start)
  else Outcome.abandon .outOfBounds

/-- Opening an envelope with every read checked. -/
def unpackSliced (magic : Magic) (version : UInt32) (bytes : List UInt8) :
    Outcome Error (List UInt8) :=
  if bytes.length < headerLength + digestLength then Outcome.report .tooShort
  else do
    let boundary := bytes.length - digestLength
    let front ← slice bytes 0 boundary
    let expected ← slice bytes boundary bytes.length
    let computed := sha256 front
    if expected ≠ computed.toList then
      Outcome.report (.digestMismatch computed expected)
    else do
      let kind ← slice front 0 4
      if kind ≠ magic.toList then Outcome.report .wrongMagic
      else do
        let found := ofLittleEndian (← slice front 4 8)
        if found ≠ version.toNat then
          Outcome.report (.wrongVersion found version)
        else do
          let declared := ofLittleEndian (← slice front 8 headerLength)
          let payload ← slice front headerLength front.length
          if declared ≠ payload.length then
            Outcome.report (.wrongLength declared payload.length)
          else return payload

private theorem slice_of_le {start stop : Nat} (hOrder : start ≤ stop)
    (hStop : stop ≤ bytes.length) :
    slice bytes start stop = .ok ((bytes.take stop).drop start) :=
      if_pos ⟨hOrder, hStop⟩

/-- With every read checked, opening still ends in the same way, hence never in
a fault. -/
theorem unpackSliced_eq (magic : Magic) (version : UInt32)
    (bytes : List UInt8) :
    unpackSliced magic version bytes =
      Outcome.ofExcept (unpack magic version bytes) := by
  unfold unpackSliced unpack unpackSigned
  by_cases hShort : bytes.length < headerLength + digestLength
  · rw [if_pos hShort, if_pos hShort]
    rfl
  rw [if_neg hShort, if_neg hShort]
  have hFront :
      headerLength ≤ (bytes.take (bytes.length - digestLength)).length := by
    rw [List.length_take]
    omega
  have hHeader : headerLength = 16 := rfl
  simp only [slice_of_le (Nat.zero_le _) (Nat.sub_le bytes.length digestLength),
    slice_of_le (Nat.sub_le bytes.length digestLength) (Nat.le_refl _),
      List.drop_zero,
    List.take_length, bind, Except.bind]
  -- Everything else is cut out of the front, which is at least as long as a
  -- header.
  generalize bytes.take (bytes.length - digestLength) = front at hFront ⊢
  have hKind : slice front 0 4 = .ok (front.take 4) :=
    slice_of_le (by decide) (by omega)
  have hVersion : slice front 4 8 = .ok ((front.drop 4).take 4) := by
    rw [slice_of_le (by decide) (by omega), List.drop_take]
  have hDeclared :
      slice front 8 headerLength = .ok ((front.drop 8).take 8) := by
    rw [slice_of_le (by omega) hFront, List.drop_take]
    rfl
  have hPayload : slice front headerLength front.length =
      .ok (front.drop headerLength) := by
    rw [slice_of_le hFront (Nat.le_refl _), List.take_length]
  simp only [hKind, hVersion, hDeclared, hPayload]
  split_ifs <;> rfl

end Envelope

/-! ## Artifacts -/

namespace Artifact

/-- Opening an envelope whose contents have a name in messages. -/
def openEnvelope (magic : Envelope.Magic) (version : UInt32) (label : String)
    (bytes : List UInt8) : Except ArtifactError (List UInt8) :=
  (Envelope.unpack magic version bytes).mapError (.envelope label)

/-- An artifact is read by opening its envelope and reading the contents. -/
private theorem ofBytes_eq_bind {α : Type} [Artifact α] (bytes : List UInt8) :
    (ofBytes bytes : Outcome ArtifactError α) =
      Outcome.ofExcept (openEnvelope (magic α) formatVersion
        (label α) bytes) >>= ofContents := by
  unfold ofBytes openEnvelope
  cases Envelope.unpack (magic α) formatVersion bytes with
  | error cause => rfl
  | ok payload => rfl

/-- The four kinds of artifacts. -/
inductive Kind where
  | proof
  | publicInputs
  | provingKey
  | verifyingKey
deriving DecidableEq, Repr

section Kinds

variable (p : Nat) (G₁ G₂ : Type) [Codec G₁] [Codec G₂]

/-- The values of a kind. -/
def Kind.Values : Kind → Type
  | .proof => Proof G₁ G₂
  | .publicInputs => PublicInputs p
  | .provingKey => ProvingKey G₁ G₂
  | .verifyingKey => VerifyingKey G₁ G₂

instance (kind : Kind) : Artifact (kind.Values p G₁ G₂) :=
  match kind with
  | .proof => inferInstanceAs (Artifact (Proof G₁ G₂))
  | .publicInputs => inferInstanceAs (Artifact (PublicInputs p))
  | .provingKey => inferInstanceAs (Artifact (ProvingKey G₁ G₂))
  | .verifyingKey => inferInstanceAs (Artifact (VerifyingKey G₁ G₂))

/-- The last of the magic bytes; the others are common to all kinds. -/
def Kind.mark : Kind → UInt8
  | .proof => 0x52
  | .publicInputs => 0x49
  | .provingKey => 0x50
  | .verifyingKey => 0x56

private theorem Kind.mark_injective {own other : Kind}
    (h : own.mark = other.mark) : own = other := by
  revert h
  cases own <;> cases other <;> decide

private theorem Kind.magic_eq (kind : Kind) :
    magic (kind.Values p G₁ G₂) = #v[0x47, 0x31, 0x36, kind.mark] := by
  cases kind <;> rfl

/-- The kinds differ in their magic bytes. -/
private theorem Kind.magic_injective {own other : Kind}
    (h : magic (own.Values p G₁ G₂) = magic (other.Values p G₁ G₂)) :
    own = other := by
  rw [Kind.magic_eq, Kind.magic_eq] at h
  exact Kind.mark_injective
    (congrArg (fun bytes : Envelope.Magic => bytes[3]) h)

/-- Whatever its contents, an envelope of one kind is not opened as one of
another. -/
theorem ofBytes_otherKind {own other : Kind} (hOther : own ≠ other)
    (payload : List UInt8) :
    (ofBytes
      (Envelope.pack (magic (own.Values p G₁ G₂)) formatVersion payload) :
        Outcome ArtifactError (other.Values p G₁ G₂)) =
      Outcome.report
        (.envelope (label (other.Values p G₁ G₂)) .wrongMagic) := by
  have hMagic : magic (own.Values p G₁ G₂) ≠ magic (other.Values p G₁ G₂) :=
    fun h => hOther (Kind.magic_injective p G₁ G₂ h)
  rw [ofBytes_eq_bind, openEnvelope, Envelope.unpack_pack_of_ne hMagic]
  rfl

end Kinds

/-- Opening an envelope is exact: it gives the contents of envelopes of the kind
and version, and of nothing else; every other byte string has the ending that
its first defect calls for; no byte beyond the end is read; and the envelopes of
the four kinds of artifacts are kept apart. -/
theorem opening_exact (magic : Envelope.Magic) (version : UInt32)
    (label : String) (bytes : List UInt8) :
    (∀ payload, openEnvelope magic version label bytes = .ok payload ↔
      bytes = Envelope.pack magic version payload ∧ payload.length < 2 ^ 64) ∧
    (∀ result, openEnvelope magic version label bytes = result ↔
      ∃ opened, Envelope.Opens magic version bytes opened ∧
        result = opened.mapError (.envelope label)) ∧
    Outcome.rephrase (.envelope label)
      (Envelope.unpackSliced magic version bytes) =
      Outcome.ofExcept (openEnvelope magic version label bytes) ∧
    ∀ (p : Nat) (G₁ G₂ : Type) [Codec G₁] [Codec G₂] (own other : Kind),
      own ≠ other →
      ∀ payload, (ofBytes
          (Envelope.pack
            (Artifact.magic (own.Values p G₁ G₂)) formatVersion payload) :
            Outcome ArtifactError (other.Values p G₁ G₂)) =
        Outcome.report
          (.envelope (Artifact.label (other.Values p G₁ G₂)) .wrongMagic) := by
  refine ⟨fun payload => ?_, fun result => ?_, ?_, ?_⟩
  · rw [← Envelope.unpack_eq_ok, openEnvelope]
    cases Envelope.unpack magic version bytes with
    | error cause =>
      exact iff_of_false (fun h => by cases h) (fun h => by cases h)
    | ok opened =>
        show Except.ok opened = Except.ok payload ↔ _
        rw [Except.ok.injEq, Except.ok.injEq]
  · constructor
    · rintro rfl
      exact ⟨_, Envelope.unpack_iff.mp rfl, rfl⟩
    · rintro ⟨opened, hOpens, rfl⟩
      rw [openEnvelope, Envelope.unpack_iff.mpr hOpens]
  · rw [Envelope.unpackSliced_eq, openEnvelope]
    cases Envelope.unpack magic version bytes with
    | error cause => rfl
    | ok opened => rfl
  · intro p G₁ G₂ _ _ own other hOther payload
    exact ofBytes_otherKind p G₁ G₂ hOther payload

end Artifact

end RankOne
