import RankOne.Witness.HintFunction

/-!
# Why solving fails
-/

namespace RankOne

/-- The two lists of inputs. -/
inductive InputKind where
  | publicInput
  | secretInput
deriving DecidableEq, Repr

namespace InputKind

/-- The word for a list of inputs in messages. -/
def name : InputKind → String
  | publicInput => "public"
  | secretInput => "secret"

end InputKind

/-- Why solving fails. -/
inductive SolveError where
  /-- A list of inputs has the wrong length. -/
  | inputCountMismatch (kind : InputKind) (expected actual : Nat)
  /-- The values violate a constraint. -/
  | unsatisfied (constraint : Nat)
  /-- Two wires of a constraint are unknown, or one wire is in two of its
  expressions. -/
  | multipleUnknowns (constraint : Nat)
  /-- No value or every value of the unknown wire satisfies the constraint. -/
  | unsolvableDivision (constraint wire : Nat)
  /-- The solver has no function of this number. -/
  | missingHint (id : UInt32)
  /-- The function of the hint whose first output is `wire` fails. -/
  | hintFailed (wire : Nat) (cause : HintFailure)
  /-- A wire that is needed, or that is left at the end, has no value. -/
  | unresolvedWire (wire : Nat)
deriving DecidableEq, Repr

namespace SolveError

/-- The text of an error. -/
def message : SolveError → String
  | inputCountMismatch kind expected actual =>
      s!"Expected {expected} {kind.name} inputs, got {actual}"
  | unsatisfied constraint =>
    s!"Constraint {constraint} is not satisfied: L * R != O"
  | multipleUnknowns constraint =>
    s!"Constraint {constraint} has more than one unsolved wire"
  | unsolvableDivision constraint wire =>
      s!"Constraint {constraint} cannot be solved for wire {wire}: division by zero"
  | missingHint id => s!"No hint function registered for custom hint {id}"
  | hintFailed wire cause =>
    s!"Hint producing wire {wire} failed: " ++ cause.message
  | unresolvedWire wire => s!"Wire {wire} was not resolved by any constraint"

end SolveError

end RankOne
