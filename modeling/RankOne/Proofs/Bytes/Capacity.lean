import Mathlib.Data.Set.Basic
import RankOne.Proofs.Bytes.Codec

/-!
# When reading ends in a fault

The length of a list is believed before an item has been seen: room is set aside
for as many items as it declares, and a length that asks for more room than
there can be is a fault. Nothing else that is read can be one. A reader that is
put together from parts faults where one of its parts does, after the parts
before it have been read.
-/

namespace RankOne

namespace Decoder

variable {α β : Type}

private theorem run_bind_eq_fault {first : Decoder α} {next : α → Decoder β}
    {input : List UInt8} {cause : Fault} :
    (first >>= next).run input = .error (.fault cause) ↔
      first.run input = .error (.fault cause) ∨
        ∃ a between, first.run input = .ok (a, between) ∧
          (next a).run between = .error (.fault cause) := by
  rw [StateT.run_bind, bind_eq_error]
  simp only [Prod.exists]

/-- A reader faults on these inputs, where it asks for too much room, and on no
others. -/
def FaultsOn (reader : Decoder α) (bad : Set (List UInt8)) : Prop :=
  ∀ input cause,
    reader.run input = .error (.fault cause) ↔
      cause = .capacityOverflow ∧ input ∈ bad

/-- The inputs from which something is read such that one of the given inputs is
left. -/
def leaving (reader : Decoder α) (bad : Set (List UInt8)) : Set (List UInt8) :=
  {input | ∃ a rest, reader.run input = .ok (a, rest) ∧ rest ∈ bad}

@[simp] theorem leaving_empty (reader : Decoder α) : reader.leaving ∅ = ∅ :=
  Set.eq_empty_iff_forall_notMem.mpr fun _ ⟨_, _, _, hRest⟩ => hRest

/-- A sequence faults where its first part does, and where its second part does
on what the first has left. -/
theorem FaultsOn.bind {first : Decoder α} {next : α → Decoder β}
    {bad bad' : Set (List UInt8)} (h : first.FaultsOn bad)
    (h' : ∀ a, (next a).FaultsOn bad') :
    (first >>= next).FaultsOn (bad ∪ first.leaving bad') := by
  intro input cause
  rw [run_bind_eq_fault, h input cause]
  constructor
  · rintro (⟨hCause, hBad⟩ | ⟨a, between, hFirst, hNext⟩)
    · exact ⟨hCause, Or.inl hBad⟩
    · obtain ⟨hCause, hBad⟩ := (h' a between cause).mp hNext
      exact ⟨hCause, Or.inr ⟨a, between, hFirst, hBad⟩⟩
  · rintro ⟨hCause, hBad | ⟨a, between, hFirst, hBad⟩⟩
    · exact Or.inl ⟨hCause, hBad⟩
    · exact Or.inr ⟨a, between, hFirst, (h' a between cause).mpr ⟨hCause, hBad⟩⟩

/-- A first part without faults has no say. -/
theorem FaultsOn.bind_of_free {first : Decoder α} {next : α → Decoder β}
    {bad : Set (List UInt8)} (h : first.FaultsOn ∅)
    (h' : ∀ a, (next a).FaultsOn bad) :
    (first >>= next).FaultsOn (first.leaving bad) := by
  have hBoth := h.bind h'
  rwa [Set.empty_union] at hBoth

/-- So has a second part without faults. -/
theorem FaultsOn.bind_free {first : Decoder α} {next : α → Decoder β}
    {bad : Set (List UInt8)} (h : first.FaultsOn bad)
    (h' : ∀ a, (next a).FaultsOn ∅) : (first >>= next).FaultsOn bad := by
  have hBoth := h.bind h'
  rwa [leaving_empty, Set.union_empty] at hBoth

theorem faultsOn_pure (a : α) : (pure a : Decoder α).FaultsOn ∅ := by
  intro input cause
  rw [StateT.run_pure]
  exact iff_of_false pure_ne_error fun h => h.2

theorem faultsOn_fail (e : DecodeError) : (fail e : Decoder α).FaultsOn ∅ := by
  intro input cause
  refine iff_of_false (fun h => ?_) fun h => h.2
  cases h

theorem faultsOn_blockOr (short : DecodeError) (count : Nat) :
    (blockOr short count).FaultsOn ∅ := by
  intro input cause
  refine iff_of_false (fun h => ?_) fun h => h.2
  have hRun : (blockOr short count).run input =
      if count ≤ input.length then .ok (input.take count, input.drop count)
      else Outcome.report short := rfl
  rw [hRun] at h
  split at h <;> cases h

theorem faultsOn_require (result : Option α) : (require result).FaultsOn ∅ := by
  cases result with
  | none => exact faultsOn_fail .invalidData
  | some a => exact faultsOn_pure a

end Decoder

open Decoder

/-- Values that are read without a fault. -/
class FaultFreeCodec (α : Type) [Codec α] : Prop where
  read_faultsOn : (Codec.read : Decoder α).FaultsOn ∅

instance : FaultFreeCodec UInt64 where
  read_faultsOn :=
    (faultsOn_blockOr .unexpectedEnd 8).bind_free fun _ => faultsOn_pure _

instance : FaultFreeCodec Digest where
  read_faultsOn :=
    (faultsOn_blockOr .unexpectedEnd 32).bind_free fun _ => faultsOn_pure _

instance {p : Nat} : FaultFreeCodec (Fp p) where
  read_faultsOn :=
    (faultsOn_blockOr .unexpectedEnd (Fp.byteCount p)).bind_free fun _ =>
      faultsOn_require _

namespace Codec

variable {α : Type} [Codec α]

/-- Examining what has been read adds no fault. -/
private theorem faultsOn_decode {bad : Set (List UInt8)}
    (h : (read : Decoder α).FaultsOn bad) :
    (decode α).FaultsOn bad := by
  refine h.bind_free fun a => ?_
  split
  · exact faultsOn_pure a
  · exact faultsOn_fail .invalidData

variable (α) in
/-- The inputs that begin with the length of a list whose items could not be
held in memory. -/
def oversized : Set (List UInt8) :=
  {input | ∃ count < 2 ^ 64, memoryLimit ≤ count * footprint α ∧
    ∃ rest, input = littleEndian 8 count ++ rest}

variable [FaultFreeCodec α]

theorem faultsOn_value : (decode α).FaultsOn ∅ :=
  faultsOn_decode FaultFreeCodec.read_faultsOn

private theorem faultsOn_readMany (count : Nat) :
    (readMany α count).FaultsOn ∅ := by
  induction count with
  | zero => exact faultsOn_pure []
  | succ count ih =>
      exact FaultFreeCodec.read_faultsOn.bind_free fun a =>
        ih.bind_free fun rest => faultsOn_pure (a :: rest)

/-- Reading a list faults on lengths that are too large, whatever stands behind
them. -/
theorem faultsOn_list : (decode (List α)).FaultsOn (oversized α) := by
  refine faultsOn_decode fun input cause => ?_
  show (Decoder.block 8 >>= fun bytes =>
    if memoryLimit ≤ ofLittleEndian bytes * footprint α
    then Decoder.abandon .capacityOverflow
    else readMany α (ofLittleEndian bytes)).run input = _ ↔ _
  have hBlock : (block 8).run input ≠ .error (.fault cause) := fun h =>
    ((faultsOn_blockOr .unexpectedEnd 8 input cause).mp h).2
  rw [run_bind_eq_fault, or_iff_right hBlock]
  constructor
  · rintro ⟨bytes, rest, hBytes, hFault⟩
    obtain ⟨rfl, hLength⟩ := run_block_eq_ok.mp hBytes
    split at hFault
    · next hLimit =>
        injection hFault with hFault
        injection hFault with hCause
        have hWord := ofLittleEndian_lt bytes
        rw [hLength] at hWord
        refine ⟨hCause.symm, ofLittleEndian bytes, hWord, hLimit, rest, ?_⟩
        rw [← hLength, littleEndian_ofLittleEndian]
    · exact absurd ((faultsOn_readMany _ rest cause).mp hFault).2
        (Set.notMem_empty rest)
  · rintro ⟨rfl, count, hWord, hLimit, rest, rfl⟩
    have hCount : ofLittleEndian (littleEndian 8 count) = count := by
      rw [ofLittleEndian_littleEndian]
      exact Nat.mod_eq_of_lt hWord
    refine ⟨littleEndian 8 count, rest,
      run_block_eq_ok.mpr ⟨rfl, length_littleEndian 8 count⟩, ?_⟩
    rw [hCount, if_pos hLimit]
    rfl

end Codec

end RankOne
