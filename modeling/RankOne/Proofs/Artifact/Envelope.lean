import RankOne.Artifact.Envelope
import RankOne.Proofs.Bytes.Codec

/-!
# What an envelope holds

An envelope is opened exactly when it is one that these contents would be put
in: every byte of it either belongs to the contents or is checked. The length is
a word of 64 bits, so contents of `2 ^ 64` bytes or more are not found again.
-/

namespace RankOne.Envelope

variable {magic : Magic} {version : UInt32} {bytes payload : List UInt8}

theorem length_signed :
    (signed magic version payload).length = headerLength + payload.length := by
  simp only [signed, List.length_append, Vector.length_toList,
    length_littleEndian, headerLength]

theorem length_pack :
    (pack magic version payload).length =
      headerLength + payload.length + digestLength := by
  simp only [pack, List.length_append, length_signed, Vector.length_toList,
    digestLength]

/-! ## The header -/

/-- Bytes with a header are the three parts of the header and the contents. -/
theorem header_append (bytes : List UInt8) :
    bytes = bytes.take 4 ++ ((bytes.drop 4).take 4 ++ ((bytes.drop 8).take 8 ++
      bytes.drop headerLength)) := by
  have hContents :
      (bytes.drop 8).take 8 ++ bytes.drop headerLength = bytes.drop 8 := by
    have h := List.take_append_drop 8 (bytes.drop 8)
    rwa [List.drop_drop] at h
  have hVersion : (bytes.drop 4).take 4 ++ bytes.drop 8 = bytes.drop 4 := by
    have h := List.take_append_drop 4 (bytes.drop 4)
    rwa [List.drop_drop] at h
  rw [hContents, hVersion, List.take_append_drop]

/-- The three parts of a header and the contents are found where they were
put. -/
theorem header_parts {first second third : List UInt8}
    (hFirst : first.length = 4) (hSecond : second.length = 4)
    (hThird : third.length = 8)
    (hBytes : bytes = first ++ (second ++ (third ++ payload))) :
    bytes.take 4 = first ∧ (bytes.drop 4).take 4 = second ∧
      (bytes.drop 8).take 8 = third ∧
      bytes.drop headerLength = payload := by
  subst hBytes
  have hDrop4 : (first ++ (second ++ (third ++ payload))).drop 4 =
      second ++ (third ++ payload) :=
    List.drop_left' hFirst
  have hDrop8 :
      (first ++ (second ++ (third ++ payload))).drop 8 = third ++ payload := by
    rw [← List.drop_drop (i := 4) (j := 4), hDrop4, List.drop_left' hSecond]
  have hDrop16 : (first ++ (second ++ (third ++ payload))).drop headerLength =
      payload := by
    rw [show headerLength = 8 + 8 from rfl, ← List.drop_drop, hDrop8,
      List.drop_left' hThird]
  rw [hDrop4, hDrop8, hDrop16]
  exact ⟨List.take_left' hFirst, List.take_left' hSecond,
    List.take_left' hThird, rfl⟩

/-- The header is right exactly if it is the header of the contents. -/
private theorem unpackSigned_eq_ok (hLength : headerLength ≤ bytes.length) :
    unpackSigned magic version bytes = .ok payload ↔
      bytes = signed magic version payload ∧ payload.length < 2 ^ 64 := by
  have hVersion : version.toNat < 256 ^ 4 := version.toNat_lt
  unfold unpackSigned signed
  rw [List.append_assoc, List.append_assoc]
  constructor
  · intro h
    simp only at h
    split_ifs at h with hMagic hFound hDeclared
    injection h with hContents
    have hShort : 16 ≤ bytes.length := hLength
    have hThird : ((bytes.drop 8).take 8).length = 8 := by
      rw [List.length_take, List.length_drop]
      omega
    have hSecond : ((bytes.drop 4).take 4).length = 4 := by
      rw [List.length_take, List.length_drop]
      omega
    rw [not_not] at hMagic hFound hDeclared
    have hPayload : payload.length < 2 ^ 64 := by
      have hWord := ofLittleEndian_lt ((bytes.drop 8).take 8)
      rwa [hDeclared, hThird, hContents] at hWord
    refine ⟨?_, hPayload⟩
    rw [header_append bytes, hMagic,
      (eq_littleEndian_iff hVersion).mpr ⟨hSecond, hFound⟩,
      (eq_littleEndian_iff hPayload).mpr ⟨hThird, hContents ▸ hDeclared⟩,
      hContents]
  · rintro ⟨hBytes, hPayload⟩
    obtain ⟨hMagic, hSecond, hThird, hContents⟩ :=
      header_parts magic.length_toList
        (length_littleEndian 4 _) (length_littleEndian 8 _) hBytes
    have hFound := ((eq_littleEndian_iff hVersion).mp hSecond).2
    have hDeclared := ((eq_littleEndian_iff hPayload).mp hThird).2
    simp only [hMagic, hFound, hDeclared, hContents, ne_eq,
      not_true_eq_false, if_false]

/-! ## Envelopes -/

/-- An envelope is opened, with these contents, exactly if these contents are
put in it. -/
theorem unpack_eq_ok : unpack magic version bytes = .ok payload ↔
    bytes = pack magic version payload ∧ payload.length < 2 ^ 64 := by
  constructor
  · intro h
    unfold unpack at h
    simp only at h
    split_ifs at h with hShort hDigest
    rw [not_not] at hDigest
    have hHeader :
        headerLength ≤ (bytes.take (bytes.length - digestLength)).length := by
      rw [List.length_take]
      omega
    obtain ⟨hSigned, hPayload⟩ := (unpackSigned_eq_ok hHeader).mp h
    refine ⟨?_, hPayload⟩
    show bytes = signed magic version payload ++
      (sha256 (signed magic version payload)).toList
    rw [← hSigned, ← hDigest, List.take_append_drop]
  · rintro ⟨rfl, hPayload⟩
    have hSigned : (pack magic version payload).take
        ((pack magic version payload).length - digestLength) =
          signed magic version payload := by
      rw [length_pack, Nat.add_sub_cancel]
      exact List.take_left' length_signed
    have hDigest : (pack magic version payload).drop
        ((pack magic version payload).length - digestLength) =
          (sha256 (signed magic version payload)).toList := by
      rw [length_pack, Nat.add_sub_cancel]
      exact List.drop_left' length_signed
    have hLong : ¬ (pack magic version payload).length <
        headerLength + digestLength := by
      rw [length_pack]
      omega
    have hHeader : headerLength ≤ (signed magic version payload).length := by
      rw [length_signed]
      omega
    unfold unpack
    rw [if_neg hLong]
    simp only [hSigned, hDigest, ne_eq, not_true_eq_false, if_false]
    exact (unpackSigned_eq_ok hHeader).mpr ⟨rfl, hPayload⟩

/-- Different contents are put in different envelopes. -/
theorem pack_inj {payload' : List UInt8} (hPayload : payload.length < 2 ^ 64)
    (hPayload' : payload'.length < 2 ^ 64)
    (h : pack magic version payload = pack magic version payload') :
    payload = payload' := by
  have hOpen :
      unpack magic version (pack magic version payload) = .ok payload :=
    unpack_eq_ok.mpr ⟨rfl, hPayload⟩
  rw [unpack_eq_ok.mpr ⟨h, hPayload'⟩] at hOpen
  injection hOpen with hSame
  exact hSame.symm

end RankOne.Envelope
