import RankOne.Artifact.Envelope
import RankOne.Artifact.Files
import RankOne.Bytes.Codec

/-!
# Artifacts

An artifact is a value that is stored in an envelope of its own kind: a proof, a
list of public inputs, or a key. It can also be written as hexadecimal text and
kept in a file.

Bytes of the contents that come after the last part of the value are ignored.
-/

namespace RankOne

/-- Why an artifact cannot be read or written. -/
inductive ArtifactError where
  | hex (cause : Hex.Error)
  | envelope (label : String) (cause : Envelope.Error)
  | contents (cause : DecodeError)
  | unreadable (cause : FileFault)
  | unwritable (cause : FileFault)
deriving DecidableEq, Repr

namespace ArtifactError

/-- The classes that errors are reported in. -/
inductive Category where
  | writing
  | reading
  | hexText
  | format
  | integrity
deriving DecidableEq, Repr

/-- The class of an error. -/
def category : ArtifactError → Category
  | hex _ => .hexText
  | envelope _ .tooShort => .reading
  | envelope _ (.digestMismatch _ _) => .integrity
  | envelope _ .wrongMagic => .format
  | envelope _ (.wrongVersion _ _) => .format
  | envelope _ (.wrongLength _ _) => .format
  | contents _ => .reading
  | unreadable _ => .reading
  | unwritable _ => .writing

/-- The text that introduces an error of a class. -/
def Category.heading : Category → String
  | writing => "Binary serialization failed: "
  | reading => "Binary deserialization failed: "
  | hexText => "Hex decoding failed: "
  | format => "Invalid data format: "
  | integrity => "Data integrity check failed: "

/-- The text for an envelope that cannot be opened. -/
def envelopeDetail (label : String) : Envelope.Error → String
  | .tooShort => s!"Data too short to be a valid {label}"
  | .digestMismatch computed expected =>
      "computed hash " ++ Hex.encode computed.toList ++
        " does not match expected " ++ Hex.encode expected
  | .wrongMagic => s!"Invalid {label} file format"
  | .wrongVersion found expected =>
      s!"Unsupported {label} format version: {found} (expected {expected})"
  | .wrongLength declared actual =>
      s!"Declared {label} length {declared} does not match payload of {actual} bytes"

/-- What an error is about, without its class. -/
def detail : ArtifactError → String
  | hex cause => cause.message
  | envelope label cause => envelopeDetail label cause
  | contents cause => cause.message
  | unreadable cause => cause.message
  | unwritable cause => cause.message

/-- The text of an error. -/
def message (e : ArtifactError) : String := e.category.heading ++ e.detail

end ArtifactError

/-- A type of values that are stored in envelopes of their own kind. -/
class Artifact (α : Type) where
  magic : Envelope.Magic
  label : String
  encode : α → List UInt8
  decode : Decoder α

namespace Artifact

/-- The version of all envelopes. -/
def formatVersion : UInt32 := 1

variable {α : Type} [Artifact α]

/-- The bytes of an artifact. -/
def toBytes (a : α) : List UInt8 :=
  Envelope.pack (magic α) formatVersion (encode a)

/-- Reads the contents of an envelope. -/
def ofContents (payload : List UInt8) : Outcome ArtifactError α :=
  Outcome.rephrase .contents ((decode.run payload).map Prod.fst)

/-- Reads an artifact from its bytes. -/
def ofBytes (bytes : List UInt8) : Outcome ArtifactError α :=
  match Envelope.unpack (magic α) formatVersion bytes with
  | .error cause => Outcome.report (.envelope (label α) cause)
  | .ok payload => ofContents payload

/-- The bytes of an artifact as hexadecimal text. -/
def toHex (a : α) : String := Hex.encode (toBytes a)

/-- Reads an artifact from hexadecimal text. -/
def ofHex (text : String) : Outcome ArtifactError α :=
  match Hex.decode text with
  | .error cause => Outcome.report (.hex cause)
  | .ok bytes => ofBytes bytes

/-- Reads an artifact from a file. -/
def load (files : Files) (path : Path) : Outcome ArtifactError α :=
  match files.read path with
  | .error cause => Outcome.report (.unreadable cause)
  | .ok bytes => ofBytes bytes

/-- Writes an artifact to a file. -/
def save (files : Files) (path : Path) (a : α) : Except ArtifactError Files :=
  match files.write path (toBytes a) with
  | .error cause => .error (.unwritable cause)
  | .ok files => .ok files

end Artifact

end RankOne
