import RankOne.Constraint.CoefficientTable
import RankOne.Constraint.CompiledSystem

/-!
# Describing a system

A description allocates wires by visibility and states constraints and hints
over their handles. Compiling it numbers the wires — public, secret, internal,
each in order of allocation, the one wire first — collects the coefficients in
one table, and compiles the flat system that results.

Handles carry only visibility and index, so a handle of another description is
accepted when it happens to name a wire of this one, and refused otherwise.
-/

namespace RankOne

/-- A linear combination of wire handles. -/
abbrev Combination (p : Nat) := List (Fp p × Wire)

/-- An input of a hint in a description. -/
inductive HintArgument (p : Nat) where
  | constant (value : Fp p)
  | combination (terms : Combination p)
deriving DecidableEq

namespace HintArgument

/-- A single wire as an input. -/
def ofWire {p : Nat} [Modulus p] (wire : Wire) : HintArgument p :=
  combination [(1, wire)]

end HintArgument

/-- A constraint over handles. -/
structure StatedConstraint (p : Nat) where
  left : Combination p
  right : Combination p
  output : Combination p
deriving DecidableEq

/-- A hint over handles. -/
structure StatedHint (p : Nat) where
  kind : HintKind
  inputs : List (HintArgument p)
  wires : List Wire
deriving DecidableEq

/-- A description of a system that is being put together. The one wire counts
as a public wire. -/
structure Builder (p : Nat) where
  numPublic : Nat := 1
  numSecret : Nat := 0
  numInternal : Nat := 0
  constraints : Array (StatedConstraint p) := #[]
  hints : Array (StatedHint p) := #[]

namespace Builder

variable {p : Nat}

/-- Allocates a wire of a visibility. -/
def allocate (builder : Builder p) : Visibility → Wire × Builder p
  | .publicInput =>
      (⟨.publicInput, builder.numPublic⟩,
        { builder with numPublic := builder.numPublic + 1 })
  | .secretInput =>
      (⟨.secretInput, builder.numSecret⟩,
        { builder with numSecret := builder.numSecret + 1 })
  | .internal =>
      (⟨.internal, builder.numInternal⟩,
        { builder with numInternal := builder.numInternal + 1 })

/-- States the constraint `left · right = output`. -/
def enforce (builder : Builder p) (left right output : Combination p) :
    Builder p :=
  { builder with constraints := builder.constraints.push ⟨left, right, output⟩ }

/-- States that the product of two wires is a third. -/
def mul [Modulus p] (builder : Builder p) (left right output : Wire) :
    Builder p :=
  builder.enforce [(1, left)] [(1, right)] [(1, output)]

/-- Declares a hint and allocates its outputs, which are internal wires. -/
def hint (builder : Builder p) (kind : HintKind)
    (inputs : List (HintArgument p)) (outputs : Nat) : List Wire × Builder p :=
  let wires := (List.range' builder.numInternal outputs).map (⟨.internal, ·⟩)
  (wires, { builder with
    numInternal := builder.numInternal + outputs
    hints := builder.hints.push ⟨kind, inputs, wires⟩ })

/-- Number of constraints so far. -/
def numConstraints (builder : Builder p) : Nat := builder.constraints.size

/-- The number of a wire in the flat layout, if it has been allocated. -/
def wireNumber? (builder : Builder p) (wire : Wire) : Option Nat :=
  match wire.visibility with
  | .publicInput => if wire.index < builder.numPublic then
    some wire.index else none
  | .secretInput =>
      if wire.index < builder.numSecret then
        some (builder.numPublic + wire.index) else none
  | .internal =>
      if wire.index < builder.numInternal then
        some (builder.numPublic + builder.numSecret + wire.index)
      else none

/-! ## Numbering

Expressions are numbered term by term: the wire of a term is looked up first,
then its coefficient gets its slot in the table that is passed along. -/

/-- Numbers an expression. -/
def number (builder : Builder p) :
    Combination p → CoefficientTable p →
      Except TermFault (Expression × CoefficientTable p)
  | [], table => .ok ([], table)
  | (coefficient, wire) :: rest, table =>
      match builder.wireNumber? wire with
      | none => .error (.foreignWire wire)
      | some id =>
          let (slot, grown) := table.insert coefficient
          match builder.number rest grown with
          | .error cause => .error cause
          | .ok (expression, final) =>
              .ok (Term.ofNumbers slot.toNat id :: expression, final)

/-- Numbers a constraint. -/
def numberConstraint (builder : Builder p) (stated : StatedConstraint p)
    (table : CoefficientTable p) :
    Except TermFault (Constraint × CoefficientTable p) := do
  let (left, table) ← builder.number stated.left table
  let (right, table) ← builder.number stated.right table
  let (output, table) ← builder.number stated.output table
  return (⟨left, right, output⟩, table)

/-- Numbers the constraints from number `index` on. -/
def numberConstraints (builder : Builder p) :
    Nat → List (StatedConstraint p) → CoefficientTable p →
      Except SystemError (List Constraint × CoefficientTable p)
  | _, [], table => .ok ([], table)
  | index, stated :: rest, table =>
      match builder.numberConstraint stated table with
      | .error cause => .error (.malformedConstraint index (.badTerm cause))
      | .ok (c, grown) =>
          match builder.numberConstraints (index + 1) rest grown with
          | .error e => .error e
          | .ok (cs, final) => .ok (c :: cs, final)

/-- Numbers the inputs of a hint. -/
def numberInputs (builder : Builder p) :
    List (HintArgument p) → CoefficientTable p →
      Except TermFault (List (HintInput p) × CoefficientTable p)
  | [], table => .ok ([], table)
  | .constant value :: rest, table =>
      match builder.numberInputs rest table with
      | .error cause => .error cause
      | .ok (inputs, final) => .ok (.constant value :: inputs, final)
  | .combination terms :: rest, table =>
      match builder.number terms table with
      | .error cause => .error cause
      | .ok (expression, grown) =>
          match builder.numberInputs rest grown with
          | .error cause => .error cause
          | .ok (inputs, final) => .ok (.expression expression :: inputs, final)

/-- Numbers the hints. -/
def numberHints (builder : Builder p) :
    List (StatedHint p) → CoefficientTable p →
      Except SystemError (List (Hint p) × CoefficientTable p)
  | [], table => .ok ([], table)
  | stated :: rest, table =>
      let wires := stated.wires.filterMap builder.wireNumber?
      match builder.numberInputs stated.inputs table with
      | .error cause => .error (.malformedHint (wires.headD 0) (.badTerm cause))
      | .ok (inputs, grown) =>
          match builder.numberHints rest grown with
          | .error e => .error e
          | .ok (hints, final) =>
            .ok (⟨stated.kind, inputs, wires⟩ :: hints, final)

/-- The flat system of a description. -/
def flatten [Modulus p] (builder : Builder p) :
    Except SystemError (FlatSystem p) := do
  let (constraints, table) ←
    builder.numberConstraints 0 builder.constraints.toList
      CoefficientTable.initial
  let (hints, table) ← builder.numberHints builder.hints.toList table
  return {
    layout := {
      numPublic := builder.numPublic.toUInt64
      numSecret := builder.numSecret.toUInt64
      numInternal := builder.numInternal.toUInt64 }
    constraints := constraints.toArray
    coefficients := table.values
    hints := hints.toArray }

/-- Compiles a description. -/
def compile [Modulus p] (settings : SchedulerSettings) (builder : Builder p) :
    Outcome SystemError (CompiledSystem p) := do
  let flat ← Outcome.ofExcept builder.flatten
  CompiledSystem.compile settings flat

end Builder

end RankOne
