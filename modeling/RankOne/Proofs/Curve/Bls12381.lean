import Mathlib.Tactic.IntervalCases
import RankOne.Curve.Bls12381
import RankOne.Proofs.Bytes.Codec
import RankOne.Proofs.Curve.Coordinate

/-!
# How points of BLS12-381 are spelled

A first coordinate with flags takes up a fixed number of bytes and is found in
its own bytes only. The flags must be those of a compressed point, infinity must
come without a sign and with a zero, and the sign is the one that the point was
found with, since no point of order two is admitted. So every point of the
subgroup has one spelling, the bytes that it is written as.
-/

namespace RankOne

open Codec Decoder

namespace Bls12381

private theorem q_lt_flagPlace : q < flagPlace := by decide +kernel

/-- The flags are the three bits above the residue. -/
private theorem flagPlace_mul : flagPlace * 8 = 256 ^ residueSize := by
  decide +kernel

instance : LawfulCoordinate (Fp q) :=
  Fp.lawfulCoordinate (by decide) (by decide)

instance : LawfulCoordinate (Fp2 q) :=
  Fp2.lawfulCoordinate (by decide) (by decide)

instance : Fact (Curve.order (Fp q) % 2 = 1) := ⟨by decide⟩

instance : Fact (Curve.order (Fp2 q) % 2 = 1) := ⟨by decide⟩

/-! ## Coordinates -/

namespace Flags

private theorem bits_lt (flags : Flags) : flags.bits < 8 := by
  unfold bits
  have := flags.compressed.toNat_le
  have := flags.infinity.toNat_le
  have := flags.larger.toNat_le
  omega

private theorem ofBits_eq_iff {n : Nat} {flags : Flags} (hn : n < 8) :
    ofBits n = flags ↔ n = flags.bits := by
  constructor
  · rintro rfl
    interval_cases n <;> rfl
  · rintro rfl
    obtain ⟨compressed, infinity, larger⟩ := flags
    cases compressed <;> cases infinity <;> cases larger <;> rfl

/-- Flags pass if they are those of a compressed point that is not infinity with
a sign. -/
private theorem check_eq_ok {flags : Flags} {input rest : List UInt8} :
    flags.check.run input = .ok ((), rest) ↔
      (flags.compressed = true ∧ (flags.larger && flags.infinity) = false) ∧
        input = rest := by
  obtain ⟨compressed, infinity, larger⟩ := flags
  cases compressed <;> cases infinity <;> cases larger <;>
    simp [check, run_fail_ne_ok, -StateT.run_pure, run_pure_eq_ok]

end Flags

/-- A number below the place of the flags, with flags on top. -/
private theorem add_flags_lt {n place : Nat} (hn : n < place) (flags : Flags) :
    n + place * flags.bits < place * 8 := by
  have hBits : place * flags.bits ≤ place * 7 :=
    Nat.mul_le_mul_left _ (Nat.le_of_lt_succ flags.bits_lt)
  omega

/-- A number with flags on top is one in which both are found. -/
private theorem eq_add_flags_iff {number n place : Nat} {flags : Flags}
    (hNumber : number < place * 8) (hn : n < place) :
    number = n + place * flags.bits ↔
      Flags.ofBits (number / place) = flags ∧ number % place = n := by
  have hPos : 0 < place := Nat.lt_of_le_of_lt (Nat.zero_le n) hn
  rw [Flags.ofBits_eq_iff (Nat.div_lt_of_lt_mul hNumber)]
  constructor
  · rintro rfl
    rw [Nat.add_mul_div_left _ _ hPos, Nat.div_eq_of_lt hn, Nat.zero_add,
      Nat.add_mul_mod_self_left, Nat.mod_eq_of_lt hn]
    exact ⟨rfl, rfl⟩
  · rintro ⟨hBits, hResidue⟩
    rw [← hBits, ← hResidue, Nat.mod_add_div]

private theorem flagged_lt (x : Fp q) (flags : Flags) :
    x.val + flagPlace * flags.bits < 256 ^ residueSize := by
  rw [← flagPlace_mul]
  exact add_flags_lt (Nat.lt_trans x.isLt q_lt_flagPlace) flags

/-- Bytes are a residue with flags if both are found in them. -/
private theorem eq_encodeFlagged_iff {bytes : List UInt8} {x : Fp q}
    {flags : Flags} :
    bytes = encodeFlagged x flags ↔
      bytes.length = residueSize ∧ flagsOf bytes = flags ∧
        residueOf? bytes = some x := by
  unfold encodeFlagged residueOf?
  rw [eq_bigEndian_iff (flagged_lt x flags), ofCanonical?_eq_some]
  refine and_congr_right fun hLength => ?_
  have hNumber : ofBigEndian bytes < flagPlace * 8 := by
    have h := ofLittleEndian_lt bytes.reverse
    rwa [List.length_reverse, hLength, ← flagPlace_mul] at h
  rw [eq_add_flags_iff hNumber (Nat.lt_trans x.isLt q_lt_flagPlace), flagsOf,
    ← hLength, List.take_length]

/-- A field whose elements, with flags, are found in their own bytes only, and
always in them. -/
class ExactFlagged (K : Type) [FlaggedCoordinate K] : Prop where
  eq_encode_iff {bytes : List UInt8} {x : K} {flags : Flags} :
    bytes = FlaggedCoordinate.encode x flags ↔
      bytes.length = FlaggedCoordinate.size K ∧
      flagsOf bytes = flags ∧ FlaggedCoordinate.ofBytes? bytes = some x

instance : ExactFlagged (Fp q) where
  eq_encode_iff := eq_encodeFlagged_iff

/-- The flags of two residues are those of the first one. -/
private theorem flagsOf_append {front back : List UInt8}
    (hFront : front.length = residueSize) :
    flagsOf (front ++ back) = flagsOf front := by
  rw [flagsOf, flagsOf, List.take_left' hFront, ← hFront, List.take_length]

/-- An element is put together from its parts if both are there. -/
private theorem ofParts_eq_some {im re : Option (Fp q)} {x : Fp2 q} :
    (do let im ← im; let re ← re; return (⟨re, im⟩ : Fp2 q)) = some x ↔
      im = some x.im ∧ re = some x.re := by
  obtain ⟨re', im'⟩ := x
  cases im <;> cases re <;> simp [and_comm]

instance : ExactFlagged (Fp2 q) where
  eq_encode_iff {bytes x flags} := by
    have hRe : x.re.val < 256 ^ residueSize :=
      Nat.lt_trans x.re.isLt (by decide +kernel)
    show bytes = encodeFlagged x.im flags ++ bigEndian residueSize x.re.val ↔ _
    have hFound : (FlaggedCoordinate.ofBytes? bytes : Option (Fp2 q)) = some x ↔
        residueOf? (bytes.take residueSize) = some x.im ∧
          ofBigEndian (bytes.drop residueSize) = x.re.val := by
      rw [← ofCanonical?_eq_some]
      exact ofParts_eq_some
    rw [hFound]
    constructor
    · rintro rfl
      obtain ⟨hLength, hFlags, hIm⟩ :=
        eq_encodeFlagged_iff.mp (rfl : encodeFlagged x.im flags = _)
      obtain ⟨hLength', hVal⟩ := (eq_bigEndian_iff hRe).mp
        (rfl : bigEndian residueSize x.re.val = _)
      rw [flagsOf_append hLength, List.take_left' hLength,
        List.drop_left' hLength, List.length_append, hLength, hLength']
      exact ⟨rfl, hFlags, hIm, hVal⟩
    · rintro ⟨hLength, hFlags, hIm, hVal⟩
      have hFront : (bytes.take residueSize).length = residueSize := by
        rw [List.length_take, hLength]
        rfl
      have hBack : (bytes.drop residueSize).length = residueSize := by
        rw [List.length_drop, hLength]
        rfl
      rw [← List.take_append_drop residueSize bytes, flagsOf_append hFront]
        at hFlags
      rw [← eq_encodeFlagged_iff.mpr ⟨hFront, hFlags, hIm⟩,
        ← (eq_bigEndian_iff hRe).mpr ⟨hBack, hVal⟩, List.take_append_drop]

/-! ## Points -/

variable {K : Type} [CoordinateField K] [Curve K] [FlaggedCoordinate K]
  [ExactFlagged K]

/-- Reading a point and leaving a rest is finding a first coordinate with flags
that pass in front of the rest, which the point belongs to. -/
theorem read_eq_ok {input rest : List UInt8} {P : Point K} :
    (read : Decoder (Point K)).run input = .ok (P, rest) ↔
      ∃ x flags, input = FlaggedCoordinate.encode x flags ++ rest ∧
        (flags.compressed = true ∧ (flags.larger && flags.infinity) = false) ∧
          pointOf? x flags = some P := by
  show (Decoder.blockOr .invalidData (FlaggedCoordinate.size K) >>= fun bytes =>
    (flagsOf bytes).check >>= fun _ =>
      Decoder.require (FlaggedCoordinate.ofBytes? bytes : Option K) >>= fun x =>
        Decoder.require (pointOf? x (flagsOf bytes))).run input = _ ↔ _
  rw [run_bind_eq_ok]
  constructor
  · rintro ⟨bytes, between, hBlock, hBytes⟩
    obtain ⟨rfl, hLength⟩ := run_blockOr_eq_ok.mp hBlock
    obtain ⟨⟨⟩, between', hCheck, hFound⟩ := run_bind_eq_ok.mp hBytes
    obtain ⟨hPass, rfl⟩ := Flags.check_eq_ok.mp hCheck
    obtain ⟨x, between', hResidue, hPoint⟩ := run_bind_eq_ok.mp hFound
    obtain ⟨hx, rfl⟩ := run_require_eq_ok.mp hResidue
    obtain ⟨hP, rfl⟩ := run_require_eq_ok.mp hPoint
    refine ⟨x, flagsOf bytes, ?_, hPass, hP⟩
    rw [← ExactFlagged.eq_encode_iff.mpr ⟨hLength, rfl, hx⟩]
  · rintro ⟨x, flags, rfl, hPass, hP⟩
    obtain ⟨hLength, hFlags, hx⟩ :=
      ExactFlagged.eq_encode_iff.mp (rfl : FlaggedCoordinate.encode x flags = _)
    refine ⟨_, rest, run_blockOr_eq_ok.mpr ⟨rfl, hLength⟩, ?_⟩
    rw [hFlags]
    refine run_bind_eq_ok.mpr ⟨(), rest, Flags.check_eq_ok.mpr ⟨hPass, rfl⟩, ?_⟩
    exact run_bind_eq_ok.mpr ⟨x, rest, run_require_eq_ok.mpr ⟨hx, rfl⟩,
      run_require_eq_ok.mpr ⟨hP, rfl⟩⟩

/-- Infinity round-trips. -/
theorem roundTrips_infinity : RoundTrips (Point.infinity : Point K) where
  admitted := Curve.inSubgroup_infinity
  read_encode _ := by
    refine read_eq_ok.mpr ⟨0, ⟨true, true, false⟩, rfl, ⟨rfl, rfl⟩, ?_⟩
    rw [pointOf?, if_pos rfl, if_pos rfl]

/-- A finite point of the subgroup round-trips if it is found from its first
coordinate. -/
theorem roundTrips_affine {x y : K}
    (hSubgroup : Curve.inSubgroup (.affine x y : Point K) = true)
    (hLift : Curve.lift? x (CoordinateField.isLarger y) = some (.affine x y)) :
    RoundTrips (Point.affine x y) where
  admitted := hSubgroup
  read_encode _ := by
    refine read_eq_ok.mpr ⟨x, ⟨true, false, CoordinateField.isLarger y⟩, rfl,
      ⟨rfl, ?_⟩, hLift⟩
    exact Bool.and_false _

variable [LawfulCoordinate K] [Fact (Curve.order K % 2 = 1)]

/-- Every point of the subgroup has one spelling only. -/
instance : SpelledCodec (Point K) where
  spellings P := {encode P}
  spelled {input rest P} hRead hAdmits := by
    have hOdd : Curve.order K % 2 = 1 := Fact.out
    obtain ⟨x, ⟨compressed, infinity, larger⟩, rfl,
      ⟨hCompressed, hSign⟩, hPoint⟩ :=
      read_eq_ok.mp hRead
    refine ⟨_, ?_, rfl⟩
    subst hCompressed
    cases infinity with
    | true =>
        rw [Bool.and_true] at hSign
        subst hSign
        rw [pointOf?, if_pos rfl] at hPoint
        split at hPoint
        · next hZero =>
            cases hPoint
            rw [hZero]
            rfl
        · cases hPoint
    | false =>
        obtain ⟨y, rfl, rfl⟩ := Curve.sign_of_lift? hOdd hPoint hAdmits
        rfl

theorem oneSpelling (P : Point K) : OneSpelling P := rfl

end Bls12381

end RankOne
