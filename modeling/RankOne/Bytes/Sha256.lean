import RankOne.Bytes.Word

/-!
# SHA-256

The message is continued by a one bit, zeros and its length in bits to a whole
number of blocks of 64 bytes. Each block is expanded to 64 words that are mixed
into a state of eight words, one round per word; the state after the block is
added to the state before it.
-/

namespace RankOne

/-- A digest of 32 bytes. -/
abbrev Digest := Vector UInt8 32

namespace Sha256

/-- The round constants: the leading fraction bits of the cube roots of the
first 64 primes. -/
def roundConstants : List UInt32 := [
  0x428a2f98, 0x71374491, 0xb5c0fbcf, 0xe9b5dba5,
  0x3956c25b, 0x59f111f1, 0x923f82a4, 0xab1c5ed5,
  0xd807aa98, 0x12835b01, 0x243185be, 0x550c7dc3,
  0x72be5d74, 0x80deb1fe, 0x9bdc06a7, 0xc19bf174,
  0xe49b69c1, 0xefbe4786, 0x0fc19dc6, 0x240ca1cc,
  0x2de92c6f, 0x4a7484aa, 0x5cb0a9dc, 0x76f988da,
  0x983e5152, 0xa831c66d, 0xb00327c8, 0xbf597fc7,
  0xc6e00bf3, 0xd5a79147, 0x06ca6351, 0x14292967,
  0x27b70a85, 0x2e1b2138, 0x4d2c6dfc, 0x53380d13,
  0x650a7354, 0x766a0abb, 0x81c2c92e, 0x92722c85,
  0xa2bfe8a1, 0xa81a664b, 0xc24b8b70, 0xc76c51a3,
  0xd192e819, 0xd6990624, 0xf40e3585, 0x106aa070,
  0x19a4c116, 0x1e376c08, 0x2748774c, 0x34b0bcb5,
  0x391c0cb3, 0x4ed8aa4a, 0x5b9cca4f, 0x682e6ff3,
  0x748f82ee, 0x78a5636f, 0x84c87814, 0x8cc70208,
  0x90befffa, 0xa4506ceb, 0xbef9a3f7, 0xc67178f2]

/-- The eight words that a block is mixed into. -/
structure State where
  a : UInt32
  b : UInt32
  c : UInt32
  d : UInt32
  e : UInt32
  f : UInt32
  g : UInt32
  h : UInt32
deriving DecidableEq, Repr

/-- The state before the first block: the leading fraction bits of the square
roots of the first eight primes. -/
def State.initial : State where
  a := 0x6a09e667
  b := 0xbb67ae85
  c := 0x3c6ef372
  d := 0xa54ff53a
  e := 0x510e527f
  f := 0x9b05688c
  g := 0x1f83d9ab
  h := 0x5be0cd19

/-- Rotates a word to the right. -/
def rotate (word : UInt32) (count : UInt32) : UInt32 :=
  (word >>> count) ||| (word <<< (32 - count))

/-- Extends the words of a block, newest first, by `count` further ones. -/
def extend : Nat → List UInt32 → List UInt32
  | 0, words => words
  | count + 1, words =>
      let w2 := words.getD 1 0
      let w7 := words.getD 6 0
      let w15 := words.getD 14 0
      let w16 := words.getD 15 0
      let s0 := rotate w15 7 ^^^ rotate w15 18 ^^^ (w15 >>> 3)
      let s1 := rotate w2 17 ^^^ rotate w2 19 ^^^ (w2 >>> 10)
      extend count ((w16 + s0 + w7 + s1) :: words)

/-- One round with a constant and a word. -/
def State.round (state : State) (constant word : UInt32) : State :=
  let s1 := rotate state.e 6 ^^^ rotate state.e 11 ^^^ rotate state.e 25
  let choice := (state.e &&& state.f) ^^^ ((~~~state.e) &&& state.g)
  let first := state.h + s1 + choice + constant + word
  let s0 := rotate state.a 2 ^^^ rotate state.a 13 ^^^ rotate state.a 22
  let majority :=
    (state.a &&& state.b) ^^^ (state.a &&& state.c) ^^^ (state.b &&& state.c)
  { a := first + (s0 + majority)
    b := state.a
    c := state.b
    d := state.c
    e := state.d + first
    f := state.e
    g := state.f
    h := state.g }

/-- Wordwise sum. -/
def State.add (s t : State) : State :=
  ⟨s.a + t.a, s.b + t.b, s.c + t.c, s.d + t.d, s.e + t.e, s.f + t.f,
    s.g + t.g, s.h + t.h⟩

/-- Mixes the sixteen words of a block into the state. -/
def State.mix (state : State) (block : List UInt32) : State :=
  let words := (extend 48 block.reverse).reverse
  state.add ((roundConstants.zip words).foldl (fun s (k, w) =>
    s.round k w) state)

/-- The words of some bytes, four bytes each. -/
def words : List UInt8 → List UInt32
  | b0 :: b1 :: b2 :: b3 :: rest =>
      ((b0.toUInt32 <<< 24) ||| (b1.toUInt32 <<< 16) ||| (b2.toUInt32 <<< 8) |||
        b3.toUInt32) ::
        words rest
  | _ => []

/-- Mixes the blocks of some words, at most `count` of them, into the state. -/
def State.mixBlocks : Nat → State → List UInt32 → State
  | 0, state, _ => state
  | _ + 1, state, [] => state
  | count + 1, state,
    words => (state.mix (words.take 16)).mixBlocks count (words.drop 16)

/-- The message continued to whole blocks. -/
def pad (message : List UInt8) : List UInt8 :=
  let zeros := (119 - message.length % 64) % 64
  message ++ 0x80 :: List.replicate zeros 0 ++ bigEndian 8 (8 * message.length)

/-- The word at a position of the state. -/
def State.word (state : State) : Nat → UInt32
  | 0 => state.a
  | 1 => state.b
  | 2 => state.c
  | 3 => state.d
  | 4 => state.e
  | 5 => state.f
  | 6 => state.g
  | _ => state.h

/-- The bytes of a state, every word most significant byte first. -/
def State.toDigest (state : State) : Digest :=
  Vector.ofFn fun i =>
    (state.word (i.val / 4) >>> (24 - 8 * (i.val % 4)).toUInt32).toUInt8

end Sha256

/-- The SHA-256 digest of a message. -/
def sha256 (message : List UInt8) : Digest :=
  let words := Sha256.words (Sha256.pad message)
  (Sha256.State.initial.mixBlocks (words.length / 16 + 1) words).toDigest

end RankOne
