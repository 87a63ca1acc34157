import RankOne.Field.Prime

/-!
# Terms, constraints and hints

A linear expression is a list of terms; a term names a coefficient by its slot
in a shared table and a wire by its number. A constraint asks that the product
of two expressions equals a third. A hint says how internal wires are produced
without solving a constraint: its function is applied to inputs that are
constants or expressions over other wires.
-/

namespace RankOne

/-- A coefficient slot and a wire number, both of 32 bits. -/
structure Term where
  slot : UInt32
  wireId : UInt32
deriving DecidableEq, Repr

namespace Term

/-- The term for a slot and a wire number of any size; only their low 32 bits
are kept. -/
def ofNumbers (slot wire : Nat) : Term := ⟨slot.toUInt32, wire.toUInt32⟩

/-- The wire a term refers to. -/
def wire (term : Term) : Nat := term.wireId.toNat

end Term

/-- A linear combination of wires. -/
abbrev Expression := List Term

/-- The constraint `left · right = output`. -/
structure Constraint where
  left : Expression
  right : Expression
  output : Expression
deriving DecidableEq, Repr

namespace Constraint

/-- All terms of a constraint: left, right, output. -/
def terms (c : Constraint) : List Term := c.left ++ c.right ++ c.output

end Constraint

/-- The function that a hint applies. -/
inductive HintKind where
  /-- One if the input is zero, else zero. -/
  | isZero
  /-- The bit of the first input's canonical integer that the second input
  selects. -/
  | ithBit
  /-- A function supplied with the solver under this number. -/
  | custom (id : UInt32)
deriving DecidableEq, Repr

namespace HintKind

/-- Whether the function is supplied by the caller. -/
def isCustom : HintKind → Bool
  | custom _ => true
  | _ => false

end HintKind

/-- An input of a hint. -/
inductive HintInput (p : Nat) where
  | constant (value : Fp p)
  | expression (terms : Expression)
deriving DecidableEq

namespace HintInput

/-- The terms that an input reads. -/
def terms {p : Nat} : HintInput p → List Term
  | constant _ => []
  | expression terms => terms

end HintInput

/-- A hint: `wires` receive the results of its function on the inputs, which are
in the order that the function expects. -/
structure Hint (p : Nat) where
  kind : HintKind
  inputs : List (HintInput p)
  wires : List Nat
deriving DecidableEq

namespace Hint

variable {p : Nat}

/-- The wire that names a hint in messages: its first output. -/
def firstWire (hint : Hint p) : Nat := hint.wires.headD 0

/-- All terms that the inputs of a hint read, in order. -/
def terms (hint : Hint p) : List Term := hint.inputs.flatMap HintInput.terms

end Hint

/-- What becomes of a sum of words that is no word. -/
inductive Arithmetic where
  /-- The computation is abandoned. -/
  | checked
  /-- The sum wraps around. -/
  | wrapping
deriving DecidableEq, Repr

/-- The numbers of wires of each visibility, as words of 64 bits. The one wire
is the first public wire.

The sums of the counts are words again. They are the true sums when the layout
`Fits`, and have wrapped around otherwise. -/
structure Layout where
  numPublic : UInt64
  numSecret : UInt64
  numInternal : UInt64
deriving DecidableEq, Repr

namespace Layout

/-- The three counts add up to a word. -/
def Fits (layout : Layout) : Prop :=
  layout.numPublic.toNat + layout.numSecret.toNat +
    layout.numInternal.toNat < UInt64.size

instance {layout : Layout} : Decidable layout.Fits :=
  inferInstanceAs (Decidable (_ < _))

/-- Wires known before solving starts. -/
def numInputs (layout : Layout) : Nat :=
  (layout.numPublic + layout.numSecret).toNat

/-- All wires. -/
def numWires (layout : Layout) : Nat :=
  (layout.numPublic + layout.numSecret + layout.numInternal).toNat

end Layout

end RankOne
