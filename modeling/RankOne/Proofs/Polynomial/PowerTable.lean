import Mathlib.Data.List.Range
import RankOne.Polynomial.PowerTable
import RankOne.Proofs.Field.Ring

/-!
# Tables of powers

A power table lists the powers of its base times its first entry, for every
number of workers: the chunks only decide where an exponentiation replaces a
running product.

The workers fill their chunks in place and at the same time. Every entry behind
the first belongs to one chunk, and what is written there depends on nothing
that another worker writes. So the table is the same in whatever order the
writes happen.
-/

namespace RankOne

variable {p : Nat}

/-! ## Writes -/

/-- Carries out writes in the given order. -/
def writeEntries (table : Array (Fp p)) (writes : List (Fp p × Nat)) :
    Array (Fp p) :=
  writes.foldl (fun table entry => table.setIfInBounds entry.2 entry.1) table

private theorem size_writeEntries (table : Array (Fp p))
    (writes : List (Fp p × Nat)) :
    (writeEntries table writes).size = table.size := by
  unfold writeEntries
  induction writes generalizing table with
  | nil => rfl
  | cons first rest ih => rw [List.foldl_cons, ih, Array.size_setIfInBounds]

/-- When all that is written to an entry is the same, neither the order of the
writes nor their number matters. -/
private theorem getElem?_writeEntries {f : Nat → Fp p} {table : Array (Fp p)}
    {writes : List (Fp p × Nat)} (h : ∀ write ∈ writes, write.1 = f write.2)
    {i : Nat} (hi : i < table.size) :
    (writeEntries table writes)[i]? =
      if i ∈ writes.map Prod.snd then some (f i) else table[i]? := by
  unfold writeEntries
  induction writes generalizing table with
  | nil => simp
  | cons first rest ih =>
      obtain ⟨hFirst, hRest⟩ := List.forall_mem_cons.mp h
      rw [List.foldl_cons, ih hRest (by rwa [Array.size_setIfInBounds]),
        Array.getElem?_setIfInBounds, List.map_cons]
      simp only [List.mem_cons]
      by_cases hSame : first.2 = i
      · subst hSame
        simp [hFirst, hi]
      · simp only [hSame, Ne.symm hSame, if_false, false_or]

variable [Modulus p]

/-! ## Entries -/

theorem geometric_eq_map (first w : Fp p) (n : Nat) :
    geometric first w n = (List.range n).map fun i => first * w ^ i := by
  induction n generalizing first with
  | zero => rfl
  | succ n ih =>
      rw [geometric, ih, List.range_succ_eq_map, List.map_cons, List.map_map,
        pow_zero, mul_one]
      congr 1
      refine List.map_congr_left fun i _ => ?_
      simp only [Function.comp_apply, Nat.succ_eq_add_one]
      ring

/-- Two geometric sequences join when the second starts where the first ends. -/
private theorem geometric_append (first w : Fp p) (m n : Nat) :
    geometric first w m ++ geometric (first * w ^ m) w n =
      geometric first w (m + n) := by
  induction m generalizing first with
  | zero => simp [geometric]
  | succ m ih =>
      rw [Nat.succ_add, geometric, geometric, List.cons_append,
        ← ih (first * w)]
      congr 3
      ring

/-- Chunks that cover what remains make up the sequence of one chunk. -/
private theorem fillChunks_eq_fillChunk (scale w : Fp p) (interval : Nat) :
    ∀ chunks exponent remaining, remaining ≤ chunks * interval →
      fillChunks scale w interval chunks exponent remaining =
        fillChunk scale w exponent remaining := by
  intro chunks
  induction chunks with
  | zero =>
      intro exponent remaining hCover
      have hNone : remaining = 0 := by omega
      subst hNone
      rfl
  | succ chunks ih =>
      intro exponent remaining hCover
      rw [fillChunks]
      split
      · rfl
      · next hMore =>
          have hRest : remaining - interval ≤ chunks * interval := by
            rw [Nat.succ_mul] at hCover
            omega
          have hPower : power w (exponent + interval) * scale =
              power w exponent * scale * w ^ interval := by
            rw [power_eq_pow, power_eq_pow, pow_add]
            ring
          rw [ih _ _ hRest, fillChunk, fillChunk, hPower,
            geometric_append, fillChunk]
          congr 1
          omega

/-- A power table lists the scaled powers, however many workers it is cut
for. -/
theorem powerTable_eq_map (workers : Nat) (scale w : Fp p) (n : Nat) :
    powerTable workers scale w n = (List.range n).map fun i =>
      scale * w ^ i := by
  cases n with
  | zero => rfl
  | succ tail =>
      have hTail :
          geometric scale w (tail + 1) = scale :: fillChunk scale w 1 tail := by
        rw [geometric, fillChunk, power_eq_pow, pow_one, mul_comm scale w]
      rw [← geometric_eq_map, hTail, powerTable]
      congr 1
      split
      · rfl
      · next hLong =>
          have hInterval : 1 ≤ tail / workers := by
            have hPositive : 1 ≤ chunkThreshold := by decide
            omega
          exact fillChunks_eq_fillChunk scale w _ tail 1 tail
            (Nat.le_mul_of_pos_right tail hInterval)

/-! ## Chunks -/

/-- The part of a table that one worker fills. -/
structure TableChunk where
  /-- The place of its first entry in the table, which is also the exponent of
  this entry. -/
  start : Nat
  length : Nat
deriving DecidableEq, Repr

/-- The chunks of a table of `n` entries, of which the first entry belongs to
none: a single one, or chunks of one length, of which the last may be
shorter. -/
def chunks (workers : Nat) : Nat → List TableChunk
  | 0 => []
  | tail + 1 =>
      let interval := tail / workers
      if interval < chunkThreshold then [⟨1, tail⟩]
      else
        (List.range ((tail + interval - 1) / interval)).map fun number =>
          ⟨1 + number * interval, min interval (tail - number * interval)⟩

/-- The writes of the worker that fills a chunk, in order. The exponent of the
first entry is a word of 64 bits. -/
def chunkWrites (scale w : Fp p) (chunk : TableChunk) : List (Fp p × Nat) :=
  (geometric (power w chunk.start.toUInt64.toNat *
    scale) w chunk.length).zipIdx chunk.start

/-- The writes of all workers, one chunk after the other. -/
def tableWrites (workers : Nat) (scale w : Fp p) (n : Nat) :
    List (Fp p × Nat) :=
  (chunks workers n).flatMap (chunkWrites scale w)

/-- The table before the workers begin. -/
def blankTable (scale : Fp p) (n : Nat) : Array (Fp p) :=
  (Array.replicate n 0).setIfInBounds 0 scale

/-- Chunks of one length follow each other, up to the end of the table. -/
private theorem flatMap_range_chunks (interval tail count : Nat) :
    ((List.range count).flatMap fun number =>
        List.range'
          (1 + number * interval) (min interval (tail - number * interval))) =
      List.range' 1 (min (count * interval) tail) := by
  induction count with
  | zero => simp
  | succ count ih =>
      rw [List.range_succ, List.flatMap_append, ih, List.flatMap_singleton,
        Nat.succ_mul]
      by_cases hRoom : count * interval ≤ tail
      · rw [Nat.min_eq_left hRoom, List.range'_append_1]
        congr 1
        omega
      · have hNone : min interval (tail - count * interval) = 0 := by omega
        rw [hNone, List.range'_zero, List.append_nil]
        congr 1
        omega

/-- The chunks cover each entry behind the first once. -/
theorem chunks_tile (workers n : Nat) :
    ((chunks workers n).flatMap fun chunk =>
      List.range' chunk.start chunk.length) =
      List.range' 1 (n - 1) := by
  cases n with
  | zero => rfl
  | succ tail =>
      unfold chunks
      dsimp only
      split
      · simp
      · next hLong =>
          have hInterval : 0 < tail / workers := by
            have hPositive : 0 < chunkThreshold := by decide
            omega
          generalize tail / workers = interval at hInterval
          rw [List.flatMap_map, flatMap_range_chunks, Nat.add_sub_cancel]
          congr 1
          -- The number of chunks is the length of the tail over the interval,
          -- rounded up.
          apply Nat.min_eq_right
          have hDivision := Nat.div_add_mod (tail + interval - 1) interval
          have hRest := Nat.mod_lt (tail + interval - 1) hInterval
          rw [Nat.mul_comm] at hDivision
          omega

private theorem chunk_start_le {workers n : Nat} {chunk : TableChunk}
    (h : chunk ∈ chunks workers n) (hSome : 0 < chunk.length) :
    chunk.start < n := by
  have hMem : chunk.start ∈ (chunks workers n).flatMap fun chunk =>
      List.range' chunk.start chunk.length :=
    List.mem_flatMap.mpr ⟨chunk, h, by simp [hSome]⟩
  rw [chunks_tile, List.mem_range'_1] at hMem
  omega

/-- A worker writes the powers that belong to the places of its chunk. -/
private theorem chunkWrites_eq_map (scale w : Fp p) {chunk : TableChunk}
    (h : chunk.start < 2 ^ 64) :
    chunkWrites scale w chunk =
      (List.range' chunk.start chunk.length).map fun i =>
        (scale * w ^ i, i) := by
  have hExponent : chunk.start.toUInt64.toNat = chunk.start := by
    rw [Nat.toUInt64_eq, UInt64.toNat_ofNat']
    exact Nat.mod_eq_of_lt h
  unfold chunkWrites
  rw [hExponent, power_eq_pow, geometric_eq_map]
  refine List.ext_getElem (by simp) fun i hi hi' => ?_
  simp only [List.getElem_zipIdx, List.getElem_map, List.getElem_range,
    List.getElem_range']
  rw [Prod.mk.injEq]
  constructor
  · rw [Nat.one_mul, pow_add]
    ring
  · omega

/-- All writes together, one for each entry behind the first. -/
private theorem tableWrites_eq_map (workers : Nat) (scale w : Fp p) {n : Nat}
    (hn : n < 2 ^ 64) :
    tableWrites workers scale w n =
      (List.range' 1 (n - 1)).map fun i => (scale * w ^ i, i) := by
  have hChunks : ∀ chunk ∈ chunks workers n, chunkWrites scale w chunk =
      (List.range' chunk.start chunk.length).map fun i =>
        (scale * w ^ i, i) := by
    intro chunk hChunk
    by_cases hSome : 0 < chunk.length
    · exact chunkWrites_eq_map scale w
        (Nat.lt_trans (chunk_start_le hChunk hSome) hn)
    · have hNone : chunk.length = 0 := by omega
      rw [chunkWrites, hNone]
      rfl
  rw [tableWrites, ← chunks_tile workers, List.map_flatMap]
  exact List.flatMap_congr hChunks

/-- A power table has as many entries as were asked for, and the entry at place
`i` is the first entry times the power of the base with exponent `i`, however
many workers there are. So far as the length is a word of 64 bits, workers that
fill their chunks in place write each entry behind the first once, and come to
this table in whatever order their writes happen. -/
theorem powerTable_exact (workers : Nat) (scale w : Fp p) (n : Nat) :
    (powerTable workers scale w n).length = n ∧
    (∀ i < n, (powerTable workers scale w n)[i]? = some (scale * w ^ i)) ∧
    (n < 2 ^ 64 →
      (tableWrites workers scale w n).map Prod.snd = List.range' 1 (n - 1) ∧
      ∀ order : List (Fp p × Nat), order.Perm (tableWrites workers scale w n) →
        (writeEntries (blankTable scale n) order).toList =
          powerTable workers scale w n) := by
  rw [powerTable_eq_map]
  refine ⟨by simp, fun i hi => by simp [hi], fun hn => ?_⟩
  have hWrites := tableWrites_eq_map workers scale w hn
  have hPlaces :
      (tableWrites workers scale w n).map Prod.snd = List.range' 1 (n - 1) := by
    rw [hWrites, List.map_map]
    exact List.map_id _
  refine ⟨hPlaces, fun order hOrder => ?_⟩
  have hValues : ∀ write ∈ order, write.1 = scale * w ^ write.2 := by
    intro write hWrite
    rw [hOrder.mem_iff, hWrites] at hWrite
    obtain ⟨i, -, rfl⟩ := List.mem_map.mp hWrite
    rfl
  have hSize : (blankTable scale n).size = n := by simp [blankTable]
  refine List.ext_getElem? fun i => ?_
  have hWritten : i ∈ order.map Prod.snd ↔ 1 ≤ i ∧ i < n := by
    rw [(hOrder.map Prod.snd).mem_iff, hPlaces, List.mem_range'_1]
    omega
  by_cases hi : i < n
  · rw [Array.getElem?_toList,
      getElem?_writeEntries (f := fun i =>
        scale * w ^ i) hValues (by rwa [hSize])]
    cases i with
    | zero => simp [hWritten, blankTable, hi]
    | succ i => simp [hWritten, hi]
  · have hLength :
        (writeEntries (blankTable scale n) order).toList.length = n := by
      rw [Array.length_toList, size_writeEntries, hSize]
    rw [List.getElem?_eq_none (hLength.le.trans (Nat.le_of_not_lt hi)),
      List.getElem?_eq_none]
    simpa using Nat.le_of_not_lt hi

/-- Two workers share out 199 entries in three chunks, of which the last has one
entry. When all is written from the end of the table to its beginning, the
powers of five, times three, modulo 13, come out. -/
theorem powerTable_exact_reversed :
    chunks 2 200 = [⟨1, 99⟩, ⟨100, 99⟩, ⟨199, 1⟩] ∧
    (powerTable 2 (Fp.ofNat 13 3) (Fp.ofNat 13 5) 200)[199]? =
      some (Fp.ofNat 13 3 * Fp.ofNat 13 5 ^ 199) ∧
    (writeEntries (blankTable (Fp.ofNat 13 3) 200)
      (tableWrites 2 (Fp.ofNat 13 3) (Fp.ofNat 13 5) 200).reverse).toList =
        powerTable 2 (Fp.ofNat 13 3) (Fp.ofNat 13 5) 200 := by
  obtain ⟨-, hEntry, hOrders⟩ :=
    powerTable_exact 2 (Fp.ofNat 13 3) (Fp.ofNat 13 5) 200
  obtain ⟨-, hOrder⟩ := hOrders (by decide)
  exact ⟨by decide, hEntry 199 (by decide), hOrder _ (List.reverse_perm _)⟩

end RankOne
