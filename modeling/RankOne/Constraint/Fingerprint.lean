import RankOne.Bytes.Sha256
import RankOne.Constraint.FlatSystem

/-!
# The digest of a system

A system is written as a byte string from which it can be read back: counts and
wire numbers of outputs as eight bytes, slots and wires of terms as four,
coefficients as eight for each of their words, all least significant byte first;
a list is preceded by its length, and a hint kind and a hint input by a tag. The
digest of the system is the SHA-256 digest of that string. The schedule is no
part of it.
-/

namespace RankOne

namespace Term

/-- The bytes of a term: slot, wire. -/
def bytes (term : Term) : List UInt8 :=
  littleEndian 4 term.slot.toNat ++ littleEndian 4 term.wireId.toNat

end Term

/-- The bytes of a list: its length, then those of its items. -/
def listBytes {α : Type} (itemBytes : α → List UInt8) (items : List α) :
    List UInt8 :=
  littleEndian 8 items.length ++ items.flatMap itemBytes

namespace Constraint

/-- The bytes of a constraint: left, right, output. -/
def bytes (c : Constraint) : List UInt8 :=
  listBytes Term.bytes c.left ++ listBytes Term.bytes c.right ++
    listBytes Term.bytes c.output

end Constraint

namespace HintKind

/-- The tag of a kind, with the number of a caller's function. -/
def bytes : HintKind → List UInt8
  | isZero => [0]
  | ithBit => [1]
  | custom id => 2 :: littleEndian 4 id.toNat

end HintKind

namespace Fp

/-- The bytes of a scalar: those of all its words. -/
def scalarBytes {p : Nat} (value : Fp p) : List UInt8 :=
  littleEndian (8 * wordCount p) value.val

end Fp

namespace HintInput

/-- The tag of an input, with its constant or its terms. -/
def bytes {p : Nat} : HintInput p → List UInt8
  | constant value => 0 :: value.scalarBytes
  | expression terms => 1 :: listBytes Term.bytes terms

end HintInput

namespace Hint

/-- The bytes of a hint: kind, inputs, output wires. -/
def bytes {p : Nat} (hint : Hint p) : List UInt8 :=
  hint.kind.bytes ++ listBytes HintInput.bytes hint.inputs ++
    listBytes (littleEndian 8 ·) hint.wires

end Hint

namespace Layout

/-- The bytes of a layout: public, secret, internal. -/
def bytes (layout : Layout) : List UInt8 :=
  littleEndian 8 layout.numPublic.toNat ++
    littleEndian 8 layout.numSecret.toNat ++
    littleEndian 8 layout.numInternal.toNat

end Layout

namespace FlatSystem

variable {p : Nat}

/-- The byte string that determines a system. -/
def bytes (system : FlatSystem p) : List UInt8 :=
  system.layout.bytes ++ listBytes Constraint.bytes system.constraints.toList ++
    listBytes Fp.scalarBytes system.coefficients.toList ++
    listBytes Hint.bytes system.hints.toList

/-- The digest of a system. -/
def digest (system : FlatSystem p) : Digest := sha256 system.bytes

end FlatSystem

end RankOne
