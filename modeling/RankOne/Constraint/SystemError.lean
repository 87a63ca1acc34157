import RankOne.Constraint.Wire

/-!
# What can be wrong with a constraint system
-/

namespace RankOne

/-- What is wrong with a term. -/
inductive TermFault where
  /-- The wire number is not below the number of wires. -/
  | wireOutOfRange (wire wires : Nat)
  /-- The slot lies outside the coefficient table. -/
  | slotOutOfRange (slot coefficients : Nat)
  /-- The handle names no wire of the description that uses it. -/
  | foreignWire (wire : Wire)
deriving DecidableEq, Repr

namespace TermFault

/-- The text for a bad term. -/
def message : TermFault → String
  | wireOutOfRange wire wires => s!"wire {wire} out of range ({wires} wires)"
  | slotOutOfRange slot coefficients =>
      s!"coefficient slot {slot} out of range ({coefficients} coefficients)"
  | foreignWire wire => wire.describe ++ " was not allocated by this builder"

end TermFault

/-- What is wrong with a constraint. -/
inductive ConstraintFault where
  | noOneWire
  | badTerm (cause : TermFault)
deriving DecidableEq, Repr

namespace ConstraintFault

/-- The text for a bad constraint. -/
def message : ConstraintFault → String
  | noOneWire => "the wire layout has no constant-one wire"
  | badTerm cause => cause.message

end ConstraintFault

/-- What is wrong with a hint. -/
inductive HintFault where
  /-- It has no output. -/
  | noOutputs
  /-- An output is an input wire or no wire at all. -/
  | outputNotInternal (wire : Nat)
  /-- A wire is an output for the second time. -/
  | producedTwice (wire : Nat)
  /-- A term of an input is bad. -/
  | badTerm (cause : TermFault)
deriving DecidableEq, Repr

namespace HintFault

/-- The text for a bad hint. -/
def message : HintFault → String
  | noOutputs => "hint has no output wires"
  | outputNotInternal wire => s!"output wire {wire} is not an internal wire"
  | producedTwice wire => s!"wire {wire} is produced by two hints"
  | badTerm cause => cause.message

end HintFault

/-- Why a constraint system is rejected. -/
inductive SystemError where
  /-- There are no constraints. -/
  | emptyCircuit
  /-- The constraint with this number is bad. -/
  | malformedConstraint (constraint : Nat) (cause : ConstraintFault)
  /-- The hint whose first output is `wire` is bad. -/
  | malformedHint (wire : Nat) (cause : HintFault)
  /-- `count` input wires occur in no constraint, `first` being the smallest. -/
  | unconstrainedInputs (count first : Nat)
  /-- `count` hint outputs occur in no constraint, `first` being the
  smallest. -/
  | unconstrainedHints (count first : Nat)
  /-- `count` other internal wires occur in no constraint, `first` being the
  smallest. -/
  | unconstrainedInternal (count first : Nat)
deriving DecidableEq, Repr

namespace SystemError

/-- The text of a rejection. -/
def message : SystemError → String
  | emptyCircuit =>
      "Constraint system has no constraints. Cannot generate a valid proof for an empty circuit"
  | malformedConstraint constraint cause =>
      s!"Malformed linear expression in constraint {constraint}: " ++
        cause.message
  | malformedHint wire cause =>
    s!"Malformed hint producing wire {wire}: " ++ cause.message
  | unconstrainedInputs count first =>
      s!"{count} inputs are not constrained (first: wire {first})"
  | unconstrainedHints count first =>
      s!"{count} hint outputs are not constrained (first: wire {first})"
  | unconstrainedInternal count first =>
      s!"{count} internal wires are not constrained (first: wire {first})"

end SystemError

end RankOne
