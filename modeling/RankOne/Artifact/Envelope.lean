import RankOne.Bytes.Hex
import RankOne.Bytes.Sha256

/-!
# Envelopes

Everything that is stored is kept in an envelope of

- four magic bytes that name the kind of contents,
- a version, as a word of 32 bits,
- the length of the contents, as a word of 64 bits,
- the contents, and
- the SHA-256 digest of all that goes before.

Opening an envelope checks all of this. The digest comes first, so that no other
check is made on bytes that have been tampered with.
-/

namespace RankOne

namespace Envelope

/-- Four bytes that name a kind of contents. -/
abbrev Magic := Vector UInt8 4

/-- Number of bytes in front of the contents. -/
def headerLength : Nat := 16

/-- Number of bytes of the digest. -/
def digestLength : Nat := 32

/-- Why an envelope cannot be opened. -/
inductive Error where
  | tooShort
  | digestMismatch (computed : Digest) (expected : List UInt8)
  | wrongMagic
  | wrongVersion (found : Nat) (expected : UInt32)
  | wrongLength (declared actual : Nat)
deriving DecidableEq, Repr

/-- Header and contents: what the digest is taken of. -/
def signed (magic : Magic) (version : UInt32) (payload : List UInt8) :
    List UInt8 :=
  magic.toList ++ littleEndian 4 version.toNat ++
    littleEndian 8 payload.length ++ payload

/-- Puts contents in an envelope. -/
def pack (magic : Magic) (version : UInt32) (payload : List UInt8) :
    List UInt8 :=
  let bytes := signed magic version payload
  bytes ++ (sha256 bytes).toList

/-- Checks the header of signed bytes and returns the contents. -/
def unpackSigned (magic : Magic) (version : UInt32) (bytes : List UInt8) :
    Except Error (List UInt8) :=
  let found := ofLittleEndian ((bytes.drop 4).take 4)
  let declared := ofLittleEndian ((bytes.drop 8).take 8)
  let payload := bytes.drop headerLength
  if bytes.take 4 ≠ magic.toList then .error .wrongMagic
  else if found ≠ version.toNat then .error (.wrongVersion found version)
  else if declared ≠ payload.length then
    .error (.wrongLength declared payload.length)
  else .ok payload

/-- Checks an envelope and returns its contents. -/
def unpack (magic : Magic) (version : UInt32) (bytes : List UInt8) :
    Except Error (List UInt8) :=
  if bytes.length < headerLength + digestLength then .error .tooShort
  else
    let signedBytes := bytes.take (bytes.length - digestLength)
    let expected := bytes.drop (bytes.length - digestLength)
    let computed := sha256 signedBytes
    if expected ≠ computed.toList then
      .error (.digestMismatch computed expected)
    else unpackSigned magic version signedBytes

end Envelope

end RankOne
