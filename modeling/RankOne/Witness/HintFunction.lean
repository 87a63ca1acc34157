import RankOne.Constraint.Term

/-!
# Hint functions

A hint function maps the values of its inputs to as many values as the hint has
outputs, or fails. Two functions are built in; the others come with the solver.
-/

namespace RankOne

/-- Why a hint function fails. -/
inductive HintFailure where
  | isZeroArity (inputs outputs : Nat)
  | ithBitArity (inputs outputs : Nat)
  | bitOutOfRange (index : Nat)
  | custom (text : String)
deriving DecidableEq, Repr

namespace HintFailure

/-- The text of a failure. -/
def message : HintFailure → String
  | isZeroArity inputs outputs =>
      s!"IsZero expects 1 input and 1 output, got {inputs} and {outputs}"
  | ithBitArity inputs outputs =>
      s!"IthBit expects 2 inputs and 1 output, got {inputs} and {outputs}"
  | bitOutOfRange index => s!"bit index {index} out of range"
  | custom text => text

end HintFailure

/-- A function from input values to a fixed number of output values. -/
abbrev HintFunction (p : Nat) :=
  List (Fp p) → (outputs : Nat) → Except HintFailure (Vector (Fp p) outputs)

namespace HintFunction

variable {p : Nat} [Modulus p]

/-- One for zero, and zero for anything else. -/
def isZero : HintFunction p
  | [x], 1 => .ok (Vector.replicate 1 (if x = 0 then 1 else 0))
  | inputs, outputs => .error (.isZeroArity inputs.length outputs)

/-- The bit of the first input's canonical integer at the position that the
second input gives. -/
def ithBit : HintFunction p
  | [x, index], 1 =>
      if index.val < Fp.bitLength p then
        .ok (Vector.replicate 1 (if x.val.testBit index.val then 1 else 0))
      else .error (.bitOutOfRange index.val)
  | inputs, outputs => .error (.ithBitArity inputs.length outputs)

end HintFunction

end RankOne
