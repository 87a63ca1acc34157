import RankOne.Bytes.Sha256
import RankOne.Failure
import RankOne.Field.Prime

/-!
# Reading and writing values

A codec writes a value as bytes and reads it back from the front of a byte
string. Reading is split in two: the bytes are turned into a value first, and
whether the value is admitted is decided afterwards. A single value is examined
as soon as it has been read, whereas the items of a list are all read before the
first of them is examined.

A list is its length, as a word of 64 bits, and its items. Room for the items is
set aside before they are read, so a length whose items could not be held in
memory at all is a fault and no error.
-/

namespace RankOne

/-- Why bytes cannot be read as a value. -/
inductive DecodeError where
  | unexpectedEnd
  | invalidData
  | unexpectedFlags
deriving DecidableEq, Repr

namespace DecodeError

/-- The text of a reading error. -/
def message : DecodeError → String
  | unexpectedEnd =>
      "I/O error: Error \x7b kind: UnexpectedEof, message: \"failed to fill whole buffer\" \x7d"
  | invalidData => "the input buffer contained invalid data"
  | unexpectedFlags => "the call expects empty flags"

end DecodeError

/-- A computation that reads from the front of a byte string. -/
abbrev Decoder := StateT (List UInt8) (Outcome DecodeError)

namespace Decoder

/-- Ends reading with an error. -/
def fail {α : Type} (e : DecodeError) : Decoder α := fun _ => Outcome.report e

/-- Abandons reading. -/
def abandon {α : Type} (cause : Fault) : Decoder α :=
  fun _ => Outcome.abandon cause

/-- The next `count` bytes; `short` is the error when there are fewer. -/
def blockOr (short : DecodeError) (count : Nat) : Decoder (List UInt8) :=
  fun bytes =>
  if count ≤ bytes.length then .ok (bytes.take count, bytes.drop count)
    else Outcome.report short

/-- The next `count` bytes. -/
def block (count : Nat) : Decoder (List UInt8) := blockOr .unexpectedEnd count

/-- The value of an optional result, which is invalid data when missing. -/
def require {α : Type} : Option α → Decoder α
  | some a => return a
  | none => fail .invalidData

end Decoder

/-- How the values of a type are written and read. -/
class Codec (α : Type) where
  /-- Number of bytes that a value occupies in memory. -/
  footprint : Nat
  encode : α → List UInt8
  read : Decoder α
  admits : α → Bool

namespace Codec

variable {α : Type} [Codec α]

/-- Reads a value and examines it. -/
def decode (α : Type) [Codec α] : Decoder α := do
  let a ← read
  if admits a then return a else Decoder.fail .invalidData

/-- Reads `count` values without examining them. -/
def readMany (α : Type) [Codec α] : Nat → Decoder (List α)
  | 0 => return []
  | count + 1 => do
      let a ← read
      let rest ← readMany α count
      return a :: rest

/-- Words are written least significant byte first. -/
instance : Codec UInt64 where
  footprint := 8
  encode word := littleEndian 8 word.toNat
  read := do return (ofLittleEndian (← Decoder.block 8)).toUInt64
  admits _ := true

/-- Digests are written as they are. -/
instance : Codec Digest where
  footprint := 32
  encode digest := digest.toList
  read := do
    let bytes ← Decoder.block 32
    return Vector.ofFn fun place => bytes.getD place.val 0
  admits _ := true

/-- Number of bytes in memory from which on a list cannot be held. -/
def memoryLimit : Nat := 1 <<< 63

/-- Lists are written with their length in front. -/
instance : Codec (List α) where
  footprint := 24
  encode items := littleEndian 8 items.length ++ items.flatMap encode
  read := do
    let count := ofLittleEndian (← Decoder.block 8)
    if memoryLimit ≤ count * footprint α then Decoder.abandon .capacityOverflow
    else readMany α count
  admits items := items.all admits

end Codec

namespace Fp

variable {p : Nat}

/-- Number of bytes that hold the representatives. -/
def byteCount (p : Nat) : Nat := (bitLength p + 7) / 8

/-- The residue that a number is the canonical representative of. -/
def ofCanonical? (n : Nat) : Option (Fp p) :=
  if h : n < p then some ⟨n, h⟩ else none

/-- Residues are written as their canonical representatives, and in memory they
fill whole words. -/
instance : Codec (Fp p) where
  footprint := 8 * ((bitLength p + 63) / 64)
  encode a := littleEndian (byteCount p) a.val
  read := do
    let bytes ← Decoder.block (byteCount p)
    Decoder.require (ofCanonical? (ofLittleEndian bytes))
  admits _ := true

end Fp

end RankOne
