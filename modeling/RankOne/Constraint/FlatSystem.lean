import RankOne.Constraint.SystemError
import RankOne.Constraint.Term
import RankOne.Failure
import Std.Data.TreeMap
import Std.Data.TreeSet

/-!
# Flat systems and their validation

A flat system is a layout of numbered wires with constraints, a coefficient
table and hints over them. Validation admits it when there is a constraint and a
one wire, every term stays inside the layout and the table, every hint has
outputs, all outputs are internal and no wire is an output twice, and every wire
but the one wire occurs in some constraint.

The wires that occur in no constraint are collected before they are counted, in
a list whose capacity grows from four entries by doubling. Sums of counts are
checked unless wrapping arithmetic is asked for.

An admitted system knows for each wire which hint produces it.
-/

namespace RankOne

/-- Constraints, coefficients and hints over a layout of numbered wires. -/
structure FlatSystem (p : Nat) where
  layout : Layout
  constraints : Array Constraint
  coefficients : Array (Fp p)
  hints : Array (Hint p)

/-- A flat system that passed validation, with the number of its hint for each
hint output. -/
structure ValidSystem (p : Nat) extends FlatSystem p where
  producers : Std.TreeMap Nat Nat

namespace FlatSystem

variable {p : Nat}

/-- The first fault of a term: the wire before the slot. -/
def termFault? (system : FlatSystem p) (term : Term) : Option TermFault :=
  if system.layout.numWires ≤ term.wire then
    some (.wireOutOfRange term.wire system.layout.numWires)
  else if system.coefficients.size ≤ term.slot.toNat then
    some (.slotOutOfRange term.slot.toNat system.coefficients.size)
  else none

/-- Checks the constraints, the first of which has number `number`. -/
def checkConstraints (system : FlatSystem p) :
    Nat → List Constraint → Except SystemError Unit
  | _, [] => .ok ()
  | number, c :: rest =>
      match c.terms.findSome? system.termFault? with
      | some cause => .error (.malformedConstraint number (.badTerm cause))
      | none => checkConstraints system (number + 1) rest

/-- Enters the outputs of hint `number`, each of which must be internal and
new. -/
def enterOutputs (layout : Layout) (number : Nat) :
    List Nat → Std.TreeMap Nat Nat → Except HintFault (Std.TreeMap Nat Nat)
  | [], producers => .ok producers
  | wire :: rest, producers =>
      if wire < layout.numInputs ∨ layout.numWires ≤ wire then
        .error (.outputNotInternal wire)
      else if producers.contains wire then .error (.producedTwice wire)
      else enterOutputs layout number rest (producers.insert wire number)

/-- Checks one hint: it has outputs, they can be entered, and its input terms
are sound. -/
def checkHint (system : FlatSystem p) (number : Nat) (hint : Hint p)
    (producers : Std.TreeMap Nat Nat) :
    Except HintFault (Std.TreeMap Nat Nat) :=
  if hint.wires.isEmpty then .error .noOutputs
  else
    match enterOutputs system.layout number hint.wires producers with
    | .error cause => .error cause
    | .ok entered =>
        match hint.terms.findSome? system.termFault? with
        | some cause => .error (.badTerm cause)
        | none => .ok entered

/-- Checks the hints, the first of which has number `number`, and collects who
produces what. -/
def checkHints (system : FlatSystem p) :
    Nat → List (Hint p) → Std.TreeMap Nat Nat →
      Except SystemError (Std.TreeMap Nat Nat)
  | _, [], producers => .ok producers
  | number, hint :: rest, producers =>
      match system.checkHint number hint producers with
      | .error cause => .error (.malformedHint hint.firstWire cause)
      | .ok entered => checkHints system (number + 1) rest entered

/-- The wires that occur in constraints. -/
def mentioned (system : FlatSystem p) : Std.TreeSet Nat :=
  system.constraints.toList.foldl
    (fun wires c =>
      c.terms.foldl (fun wires term => wires.insert term.wire) wires) ∅

/-- The most wires that are collected: the list would have to grow to twice as
many, which are more words than can be addressed. -/
def collectionLimit : Nat := 1 <<< 59

/-- Reports how many wires have been collected and the first of them, if they
could be. -/
def rejectIdle (reject : Nat → Nat → SystemError) (count first : Nat) :
    Outcome SystemError Unit :=
  if collectionLimit < count then Outcome.abandon .capacityOverflow
  else Outcome.report (reject count first)

/-- Rejects when some of the given wires do not occur in a constraint. -/
def requireMentioned (mentioned : Std.TreeSet Nat)
    (reject : Nat → Nat → SystemError) (wires : List Nat) :
    Outcome SystemError Unit :=
  match wires.filter (fun wire => !mentioned.contains wire) with
  | [] => .ok ()
  | first :: rest => rejectIdle reject (rest.length + 1) first

/-- Checks that every wire but the one wire occurs in a constraint: inputs
first, then hint outputs, then the other internal wires. -/
def checkMentioned (system : FlatSystem p) (producers : Std.TreeMap Nat Nat) :
    Outcome SystemError Unit := do
  let layout := system.layout
  let mentioned := system.mentioned
  requireMentioned mentioned .unconstrainedInputs
    (List.range' 1 (layout.numInputs - 1))
  requireMentioned mentioned .unconstrainedHints producers.keys
  requireMentioned mentioned .unconstrainedInternal
    (List.range' layout.numInputs (layout.numWires - layout.numInputs))

/-- Whether marking every wire needs more memory than can be addressed. -/
def exceedsMemory (layout : Layout) : Bool := 1 <<< 63 ≤ layout.numWires

/-- Whether sums have wrapped around so that the input wires reach beyond the
last wire. -/
def inputsExceedWires (layout : Layout) : Bool :=
  layout.numWires < layout.numInputs && 1 < layout.numInputs

/-- Admits or rejects a system. -/
def validate (system : FlatSystem p) (arithmetic : Arithmetic := .checked) :
    Outcome SystemError (ValidSystem p) :=
  if system.constraints.isEmpty then Outcome.report .emptyCircuit
  else if system.layout.numPublic = 0 then
    Outcome.report (.malformedConstraint 0 .noOneWire)
  else if arithmetic = .checked ∧ ¬system.layout.Fits then
    Outcome.abandon .countOverflow
  else if exceedsMemory system.layout then Outcome.abandon .capacityOverflow
  else do
    Outcome.ofExcept (system.checkConstraints 0 system.constraints.toList)
    let producers ← Outcome.ofExcept (system.checkHints 0 system.hints.toList ∅)
    if inputsExceedWires system.layout then Outcome.abandon .outOfBounds
    else
      system.checkMentioned producers
      return { system with producers }

end FlatSystem

namespace ValidSystem

variable {p : Nat}

/-- The number of the hint that produces a wire, with the hint. -/
def hintFor? (system : ValidSystem p) (wire : Nat) : Option (Nat × Hint p) := do
  let number ← system.producers[wire]?
  let hint ← system.hints[number]?
  return (number, hint)

/-- Number of constraints. -/
def numConstraints (system : ValidSystem p) : Nat := system.constraints.size

/-- Number of rows of the polynomial problem: one per constraint and one per
public wire, as a 64-bit word. -/
def numRows (system : ValidSystem p) : Nat :=
  (system.constraints.size.toUInt64 + system.layout.numPublic).toNat

/-- Whether no sum of counts has wrapped around: the public wires are among the
inputs, the inputs among the wires, and there is a row for each constraint and
each public wire. -/
def countsFit (system : ValidSystem p) : Bool :=
  system.layout.numPublic.toNat ≤ system.layout.numInputs &&
    system.layout.numInputs ≤ system.layout.numWires &&
    system.numConstraints + system.layout.numPublic.toNat == system.numRows

end ValidSystem

end RankOne
