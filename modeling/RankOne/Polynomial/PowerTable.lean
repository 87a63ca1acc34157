import RankOne.Field.Prime

/-!
# Tables of scaled powers

`powerTable workers scale w n` lists `scale, scale·w, scale·w², …` up to `n`
entries. The entries after the first are cut into one chunk per worker; a chunk
is seeded by one exponentiation and filled by repeated multiplication. When the
chunks would be shorter than `chunkThreshold` an exponentiation per chunk costs
more than it saves and the tail is filled as a single chunk.
-/

namespace RankOne

variable {p : Nat}

/-- Chunks shorter than this are not worth an exponentiation of their own. -/
def chunkThreshold : Nat := 92

/-- `n` values, each the product of the one before with `w`. -/
def geometric (first w : Fp p) : Nat → List (Fp p)
  | 0 => []
  | n + 1 => first :: geometric (first * w) w n

@[simp] theorem length_geometric (first w : Fp p) (n : Nat) :
    (geometric first w n).length = n := by
  induction n generalizing first with
  | zero => rfl
  | succ n ih => simp [geometric, ih]

variable [Modulus p]

/-- The `n` entries of a table that start at exponent `exponent`. -/
def fillChunk (scale w : Fp p) (exponent n : Nat) : List (Fp p) :=
  geometric (power w exponent * scale) w n

/-- The entries from exponent `exponent` on, in at most `chunks` chunks of
`interval` entries; the last chunk takes what is left. -/
def fillChunks (scale w : Fp p) (interval : Nat) : Nat → Nat → Nat → List (Fp p)
  | 0, _, _ => []
  | chunks + 1, exponent, remaining =>
      if remaining ≤ interval then fillChunk scale w exponent remaining
      else fillChunk scale w exponent interval ++
        fillChunks scale w interval chunks
          (exponent + interval) (remaining - interval)

/-- The table `[scale, scale·w, scale·w², …]` of length `n`, computed for
`workers` workers. -/
def powerTable (workers : Nat) (scale w : Fp p) : Nat → List (Fp p)
  | 0 => []
  | tail + 1 =>
      let interval := tail / workers
      scale ::
        if interval < chunkThreshold then fillChunk scale w 1 tail
        else fillChunks scale w interval tail 1 tail

end RankOne
