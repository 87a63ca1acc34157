import RankOne.Curve.Bn254
import RankOne.Proofs.Bytes.Codec
import RankOne.Proofs.Curve.Coordinate

/-!
# How points of BN254 are spelled

A first coordinate with flags takes up a fixed number of bytes and is found in
its own bytes only. From there on two things can differ between the bytes that
are read and those that the point is written as. The sign is the one that the
point was found with, since no point of order two is admitted. The first
coordinate of infinity, however, is not looked at: infinity is written with a
zero, and is read with anything.
-/

namespace RankOne

open Codec Decoder

namespace Bn254

private theorem q_lt_flagPlace : q < flagPlace := by decide

instance : LawfulCoordinate (Fp q) :=
  Fp.lawfulCoordinate (by decide) (by decide)

instance : LawfulCoordinate (Fp2 q) :=
  Fp2.lawfulCoordinate (by decide) (by decide)

instance : Fact (Curve.order (Fp q) % 2 = 1) := ⟨by decide⟩

instance : Fact (Curve.order (Fp2 q) % 2 = 1) := ⟨by decide⟩

/-! ## Coordinates -/

private theorem Mark.ofBits?_eq_some {n : Nat} {mark : Mark} :
    Mark.ofBits? n = some mark ↔ n = mark.bits := by
  constructor
  · intro h
    unfold Mark.ofBits? at h
    split at h <;> cases h <;> rfl
  · rintro rfl
    cases mark <;> rfl

private theorem marked_lt (x : Fp q) (mark : Mark) :
    x.val + flagPlace * mark.bits < 256 ^ 32 := by
  have hx := Nat.lt_trans x.isLt q_lt_flagPlace
  have hBits : mark.bits ≤ 2 := by cases mark <;> decide
  unfold flagPlace at *
  omega

/-- Reading a residue with flags and leaving a rest is finding its bytes in
front of the rest. -/
private theorem readMarked_eq_ok {input rest : List UInt8} {x : Fp q}
    {mark : Mark} :
    readMarked.run input = .ok ((x, mark), rest) ↔
      input = encodeMarked x mark ++ rest := by
  have hx := Nat.lt_trans x.isLt q_lt_flagPlace
  constructor
  · intro h
    obtain ⟨bytes, between, hBlock, hNumber⟩ := run_bind_eq_ok.mp h
    obtain ⟨rfl, hLength⟩ := run_block_eq_ok.mp hBlock
    simp only at hNumber
    split at hNumber
    · exact absurd hNumber run_fail_ne_ok
    · next mark' hMark =>
        obtain ⟨x', between', hResidue, hPair⟩ := run_bind_eq_ok.mp hNumber
        obtain ⟨hCanonical, rfl⟩ := run_require_eq_ok.mp hResidue
        obtain ⟨hPair, rfl⟩ := run_pure_eq_ok.mp hPair
        cases hPair
        have hParts : ofLittleEndian bytes = x.val + flagPlace * mark.bits := by
          rw [← Mark.ofBits?_eq_some.mp hMark,
            ← ofCanonical?_eq_some.mp hCanonical, Nat.mod_add_div]
        congr 1
        exact (eq_littleEndian_iff (marked_lt x mark)).mpr ⟨hLength, hParts⟩
  · rintro rfl
    obtain ⟨hLength, hParts⟩ := (eq_littleEndian_iff (marked_lt x mark)).mp
      (rfl : encodeMarked x mark = _)
    have hMark : Mark.ofBits? (ofLittleEndian (encodeMarked x mark) /
        flagPlace) = some mark := by
      rw [Mark.ofBits?_eq_some, hParts, Nat.add_mul_div_left _ _ (by decide),
        Nat.div_eq_of_lt hx, Nat.zero_add]
    have hResidue :
        Fp.ofCanonical? (ofLittleEndian (encodeMarked x mark) % flagPlace) =
          some x := by
      rw [ofCanonical?_eq_some, hParts, Nat.add_mul_mod_self_left,
        Nat.mod_eq_of_lt hx]
    refine run_bind_eq_ok.mpr ⟨encodeMarked x mark, rest,
      run_block_eq_ok.mpr ⟨rfl, hLength⟩, ?_⟩
    simp only [hMark]
    exact run_bind_eq_ok.mpr ⟨x, rest, run_require_eq_ok.mpr ⟨hResidue, rfl⟩,
      run_pure_eq_ok.mpr ⟨rfl, rfl⟩⟩

/-- A field whose elements, with flags, are read from their own bytes only, and
always from them. -/
class ExactMarked (K : Type) [MarkedCoordinate K] : Prop where
  read_eq_ok {input rest : List UInt8} {x : K} {mark : Mark} :
    (MarkedCoordinate.read : Decoder (K × Mark)).run input =
      .ok ((x, mark), rest) ↔
      input = MarkedCoordinate.encode x mark ++ rest

instance : ExactMarked (Fp q) where
  read_eq_ok := readMarked_eq_ok

instance : ExactMarked (Fp2 q) where
  read_eq_ok {input rest x mark} := by
    show (Codec.read >>= fun re : Fp q => readMarked >>= fun pair =>
      pure ((⟨re, pair.1⟩ : Fp2 q), pair.2)).run input = _ ↔
        input = Codec.encode x.re ++ encodeMarked x.im mark ++ rest
    rw [run_bind_eq_ok, List.append_assoc]
    constructor
    · rintro ⟨re, between, hRe, hRest⟩
      obtain ⟨⟨im, mark'⟩, between', hIm, hPair⟩ := run_bind_eq_ok.mp hRest
      obtain ⟨hPair, rfl⟩ := run_pure_eq_ok.mp hPair
      cases hPair
      rw [ExactCodec.read_eq_ok.mp hRe, readMarked_eq_ok.mp hIm]
    · rintro rfl
      refine ⟨x.re, _, ExactCodec.read_eq_ok.mpr rfl, ?_⟩
      exact run_bind_eq_ok.mpr ⟨(x.im, mark), rest, readMarked_eq_ok.mpr rfl,
        run_pure_eq_ok.mpr ⟨rfl, rfl⟩⟩

/-! ## Points -/

variable {K : Type} [CoordinateField K] [Curve K] [MarkedCoordinate K]
  [ExactMarked K]

/-- Reading a point and leaving a rest is finding a first coordinate with flags
in front of the rest, which the point belongs to. -/
theorem read_eq_ok {input rest : List UInt8} {P : Point K} :
    (read : Decoder (Point K)).run input = .ok (P, rest) ↔
      ∃ x mark, input = MarkedCoordinate.encode x mark ++ rest ∧
        pointOf? x mark = some P := by
  show ((MarkedCoordinate.read : Decoder (K × Mark)) >>= fun pair =>
    Decoder.require (pointOf? pair.1 pair.2)).run input = _ ↔ _
  rw [run_bind_eq_ok]
  constructor
  · rintro ⟨⟨x, mark⟩, between, hPair, hFound⟩
    obtain ⟨hPoint, rfl⟩ := run_require_eq_ok.mp hFound
    exact ⟨x, mark, ExactMarked.read_eq_ok.mp hPair, hPoint⟩
  · rintro ⟨x, mark, hInput, hPoint⟩
    exact ⟨(x, mark), rest, ExactMarked.read_eq_ok.mpr hInput,
      run_require_eq_ok.mpr ⟨hPoint, rfl⟩⟩

/-- Infinity round-trips. -/
theorem roundTrips_infinity : RoundTrips (Point.infinity : Point K) where
  admitted := Curve.inSubgroup_infinity
  read_encode _ := read_eq_ok.mpr ⟨0, .infinity, rfl, rfl⟩

/-- A finite point of the subgroup round-trips if it is found from its first
coordinate. -/
theorem roundTrips_affine {x y : K}
    (hSubgroup : Curve.inSubgroup (.affine x y : Point K) = true)
    (hLift : Curve.lift? x (CoordinateField.isLarger y) = some (.affine x y)) :
    RoundTrips (Point.affine x y) where
  admitted := hSubgroup
  read_encode _ := by
    refine read_eq_ok.mpr
      ⟨x, if CoordinateField.isLarger y then .larger else .smaller, rfl, ?_⟩
    rw [← hLift]
    cases CoordinateField.isLarger y <;> rfl

theorem roundTrips_generator : RoundTrips (Curve.generator : Point (Fp q)) :=
  roundTrips_affine (by decide +kernel) (by decide +kernel)

variable [LawfulCoordinate K] [Fact (Curve.order K % 2 = 1)]

/-- Infinity has one spelling for each first coordinate, and every other point
of the subgroup has one spelling only. -/
instance : SpelledCodec (Point K) where
  spellings
    | .infinity => Set.range fun x : K => MarkedCoordinate.encode x .infinity
    | .affine x y => {encode (Point.affine x y)}
  spelled {input rest P} hRead hAdmits := by
    obtain ⟨x, mark, rfl, hPoint⟩ := read_eq_ok.mp hRead
    refine ⟨MarkedCoordinate.encode x mark, ?_, rfl⟩
    have hOdd : Curve.order K % 2 = 1 := Fact.out
    cases mark with
    | infinity =>
        cases hPoint
        exact ⟨x, rfl⟩
    | smaller =>
        obtain ⟨y, rfl, hy⟩ := Curve.sign_of_lift? hOdd hPoint hAdmits
        show _ = MarkedCoordinate.encode x _
        rw [hy]
        rfl
    | larger =>
        obtain ⟨y, rfl, hy⟩ := Curve.sign_of_lift? hOdd hPoint hAdmits
        show _ = MarkedCoordinate.encode x _
        rw [hy]
        rfl

theorem oneSpelling_of_ne_infinity {P : Point K} (hP : P ≠ .infinity) :
    OneSpelling P := by
  cases P with
  | infinity => exact absurd rfl hP
  | affine x y => rfl

end Bn254

end RankOne
