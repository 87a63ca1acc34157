import RankOne.Constraint.CompiledSystem
import RankOne.Witness.SolveError

/-!
# Solving a compiled system

The solver starts from the input wires and runs the levels of the schedule in
order. The tasks of a level all see the wires known before the level, and what
they find out becomes known after it. A task runs its constraints in order; each
sees what the earlier ones of the task found out.

A constraint is run in three parts. First the hints that produce its wires are
run, each after the hints it reads. Then its three expressions are summed over
the known wires, and terms on one unknown wire are folded into one coefficient.
Last the equation is solved for the unknown wire, if there is one, and checked.

`trace` keeps a record of every constraint that was run: the wires it wrote and
the hints it ran, in order, and the values of its expressions.
-/

namespace RankOne

/-- A full assignment, and the rows of the polynomial problem: the values of the
left, right and output expressions. -/
structure Solution (p : Nat) where
  a : List (Fp p)
  b : List (Fp p)
  c : List (Fp p)
  witness : List (Fp p)
deriving DecidableEq

namespace Solution

/-- The values of the public wires other than the one wire. -/
def publicInputs {p : Nat} (solution : Solution p) (numPublic : Nat) :
    List (Fp p) :=
  (solution.witness.take numPublic).drop 1

end Solution

/-- The wires that a constraint sees: those known before its level, and those
that earlier constraints of its task wrote, newest first. -/
structure View (p : Nat) where
  known : Array (Option (Fp p))
  recent : List (Nat × Fp p) := []

/-- What one constraint has done so far, newest first. -/
structure Progress (p : Nat) where
  writes : List (Nat × Fp p) := []
  hints : List Nat := []

/-- The values of the three expressions of a constraint. -/
structure Row (p : Nat) where
  left : Fp p
  right : Fp p
  output : Fp p
deriving DecidableEq

/-- The record of one constraint that was run. -/
structure Step (p : Nat) extends Progress p where
  constraint : Nat
  row : Row p

/-- An expression summed over the known wires, with the one unknown wire and its
coefficient. -/
structure PartialSum (p : Nat) where
  sum : Fp p
  /-- The unknown wire with the sum of its coefficients. -/
  unknown : Option (Nat × Fp p) := none
deriving DecidableEq

namespace View

variable {p : Nat}

/-- The value of a wire for a constraint that has come as far as `progress`. -/
def get (view : View p) (progress : Progress p) (wire : Nat) :
    Except Fault (Option (Fp p)) :=
  match view.known[wire]? with
  | none => .error .outOfBounds
  | some (some value) => .ok (some value)
  | some none =>
      match progress.writes.lookup wire with
      | some value => .ok (some value)
      | none => .ok (view.recent.lookup wire)

/-- What the next constraint of the task sees. -/
def after (view : View p) (step : Step p) : View p :=
  { view with recent := step.writes ++ view.recent }

end View

namespace PartialSum

variable {p : Nat} [Modulus p]

/-- Adds a term. A second unknown wire is an error of the constraint. -/
def addTerm (constraint : Nat) (partialSum : PartialSum p) (coefficient : Fp p)
    (wire : Nat) :
    Option (Fp p) → Except SolveError (PartialSum p)
  | some value =>
    .ok { partialSum with sum := partialSum.sum + coefficient * value }
  | none =>
      match partialSum.unknown with
      | none => .ok { partialSum with unknown := some (wire, coefficient) }
      | some (unknown, folded) =>
          if unknown = wire then
            .ok { partialSum with unknown := some (wire, folded + coefficient) }
          else .error (.multipleUnknowns constraint)

/-- Solves `left · right = output` for the one unknown wire, if there is one:
its value, and the values of the three expressions. -/
def isolate (constraint : Nat) (left right output : PartialSum p) :
    Except SolveError (Option (Nat × Fp p) × Row p) :=
  let l := left.sum
  let r := right.sum
  let o := output.sum
  match left.unknown, right.unknown, output.unknown with
  | none, none, none => .ok (none, ⟨l, r, o⟩)
  | some (wire, k), none, none =>
      if r = 0 ∨ k = 0 then .error (.unsolvableDivision constraint wire)
      else
        let x := (o * r⁻¹ - l) * k⁻¹
        .ok (some (wire, x), ⟨l + k * x, r, o⟩)
  | none, some (wire, k), none =>
      if l = 0 ∨ k = 0 then .error (.unsolvableDivision constraint wire)
      else
        let x := (o * l⁻¹ - r) * k⁻¹
        .ok (some (wire, x), ⟨l, r + k * x, o⟩)
  | none, none, some (wire, k) =>
      if k = 0 then .error (.unsolvableDivision constraint wire)
      else
        let x := (l * r - o) * k⁻¹
        .ok (some (wire, x), ⟨l, r, o + k * x⟩)
  | _, _, _ => .error (.multipleUnknowns constraint)

/-- Solves a constraint and checks that it holds. -/
def solve (constraint : Nat) (left right output : PartialSum p) :
    Except SolveError (Option (Nat × Fp p) × Row p) :=
  match isolate constraint left right output with
  | .error e => .error e
  | .ok (write, row) =>
      if row.left * row.right = row.output then .ok (write, row)
      else .error (.unsatisfied constraint)

end PartialSum

/-- A compiled system with the functions of its custom hints. -/
structure Solver (p : Nat) where
  system : CompiledSystem p
  functions : Std.TreeMap Nat (HintFunction p) := ∅

namespace Solver

variable {p : Nat}

/-- A solver with the built-in functions only. -/
def ofSystem (system : CompiledSystem p) : Solver p := { system }

/-- Supplies the function of a custom hint; a later one of the same number
replaces it. -/
def withHint (solver : Solver p) (id : UInt32) (function : HintFunction p) :
    Solver p :=
  { solver with functions := solver.functions.insert id.toNat function }

/-- The text for a solver: how many constraints it has and which custom hints it
knows. -/
def describe (solver : Solver p) : String :=
  "Solver \x7b constraints: " ++
    toString solver.system.numConstraints ++ ", custom_hints: [" ++
    ", ".intercalate (solver.functions.keys.map toString) ++ "] \x7d"

variable [Modulus p]

/-- The coefficient in a slot. -/
def coefficient (solver : Solver p) (slot : UInt32) : Except Fault (Fp p) :=
  match solver.system.coefficients[slot.toNat]? with
  | some value => .ok value
  | none => .error .outOfBounds

/-! ## Hints -/

/-- Adds a term whose wire must be known. -/
def addKnown (solver : Solver p) (view : View p) (progress : Progress p)
    (sum : Fp p) (term : Term) : Outcome SolveError (Fp p) := do
  match ← Outcome.ofFaulty (view.get progress term.wire) with
  | none => Outcome.report (.unresolvedWire term.wire)
  | some value =>
      let coefficient ← Outcome.ofFaulty (solver.coefficient term.slot)
      return sum + coefficient * value

/-- The value of an expression all of whose wires must be known. -/
def evaluateKnown (solver : Solver p) (view : View p) (progress : Progress p)
    (terms : Expression) : Outcome SolveError (Fp p) :=
  terms.foldlM (solver.addKnown view progress) 0

/-- The value of an input of a hint. -/
def evaluateInput (solver : Solver p) (view : View p) (progress : Progress p) :
    HintInput p → Outcome SolveError (Fp p)
  | .constant value => .ok value
  | .expression terms => solver.evaluateKnown view progress terms

/-- The function of a hint. -/
def functionOf (solver : Solver p) :
    HintKind → Except SolveError (HintFunction p)
  | .isZero => .ok HintFunction.isZero
  | .ithBit => .ok HintFunction.ithBit
  | .custom id =>
      match solver.functions[id.toNat]? with
      | some function => .ok function
      | none => .error (.missingHint id)

/-- The values of a hint's outputs, from the values of its inputs. -/
def applyHint (solver : Solver p) (hint : Hint p) (inputs : List (Fp p)) :
    Except SolveError (List (Fp p)) :=
  match solver.functionOf hint.kind with
  | .error e => .error e
  | .ok function =>
      match function inputs hint.wires.length with
      | .error cause => .error (.hintFailed hint.firstWire cause)
      | .ok outputs => .ok outputs.toList

/-- Runs a hint unless its outputs are known, after the hints whose outputs it
reads. Hints do not read each other in a circle, so as many levels as there are
hints, and one more, suffice. -/
def runHint (solver : Solver p) (view : View p) :
    Nat → Nat → Hint p → Progress p → Outcome SolveError (Progress p)
  | 0, _, hint, _ => Outcome.abandon (.hintReadsItself hint.firstWire)
  | levels + 1, number, hint, progress => do
      if (← Outcome.ofFaulty (view.get progress hint.firstWire)).isSome then
        return progress
      let settled ← hint.terms.foldlM
        (fun progress term => do
          if (← Outcome.ofFaulty (view.get progress term.wire)).isSome then
            return progress
          match solver.system.hintFor? term.wire with
          | some (source, sourceHint) =>
            runHint solver view levels source sourceHint progress
          | none => return progress)
        progress
      let inputs ← hint.inputs.mapM (solver.evaluateInput view settled)
      let outputs ← Outcome.ofExcept (solver.applyHint hint inputs)
      return {
        writes := (hint.wires.zip outputs).reverse ++ settled.writes
        hints := number :: settled.hints }

/-- Runs the hint that produces the wire of a term, if there is one. -/
def runHintOf (solver : Solver p) (view : View p) (progress : Progress p)
    (term : Term) : Outcome SolveError (Progress p) :=
  match solver.system.hintFor? term.wire with
  | some (number, hint) =>
      solver.runHint view (solver.system.hints.size + 1) number hint progress
  | none => .ok progress

/-! ## Constraints -/

/-- Adds a term whose wire may be unknown. -/
def addSeen (solver : Solver p) (view : View p) (progress : Progress p)
    (constraint : Nat) (partialSum : PartialSum p) (term : Term) :
    Outcome SolveError (PartialSum p) := do
  let coefficient ← Outcome.ofFaulty (solver.coefficient term.slot)
  let value ← Outcome.ofFaulty (view.get progress term.wire)
  Outcome.ofExcept (partialSum.addTerm constraint coefficient term.wire value)

/-- Sums an expression over the known wires. -/
def sumKnown (solver : Solver p) (view : View p) (progress : Progress p)
    (constraint : Nat) (terms : Expression) :
    Outcome SolveError (PartialSum p) :=
  terms.foldlM (solver.addSeen view progress constraint) ⟨0, none⟩

/-- Runs a constraint. -/
def runConstraint (solver : Solver p) (view : View p) (constraint : Nat) :
    Outcome SolveError (Step p) :=
  match solver.system.constraints[constraint]? with
  | none => Outcome.abandon .outOfBounds
  | some c => do
      let progress ← c.terms.foldlM (solver.runHintOf view) {}
      let left ← solver.sumKnown view progress constraint c.left
      let right ← solver.sumKnown view progress constraint c.right
      let output ← solver.sumKnown view progress constraint c.output
      let (write, row) ← Outcome.ofExcept
        (PartialSum.solve constraint left right output)
      return {
        writes := write.toList ++ progress.writes
        hints := progress.hints
        constraint
        row }

/-! ## Tasks and levels -/

/-- The constraints of a task that were run, and what ended it early. -/
structure TaskRun (p : Nat) where
  steps : List (Step p) := []
  failure : Option (Failure SolveError) := none

/-- Runs the constraints of a task until one fails. -/
def runTask (solver : Solver p) : View p → List Nat → TaskRun p
  | _, [] => {}
  | view, node :: rest =>
      match solver.runConstraint view node with
      | .error failure => { failure := some failure }
      | .ok step =>
          let later := solver.runTask (view.after step) rest
          { later with steps := step :: later.steps }

/-- Makes the wires of a step known. -/
def commitStep (known : Array (Option (Fp p))) (step : Step p) :
    Array (Option (Fp p)) :=
  step.writes.foldr (fun (wire, value) known =>
    known.setIfInBounds wire (some value)) known

/-- What a run found out, the records of the constraints that were run, and what
ended it early. -/
structure Trace (p : Nat) where
  known : Array (Option (Fp p))
  steps : List (Step p) := []
  /-- Why it ended early: the failure of the first task that failed. -/
  failure : Option (Failure SolveError) := none

/-- Runs levels until one fails. All tasks of a level are run. -/
def runLevels (solver : Solver p) : List Level → Array (Option (Fp p)) → Trace p
  | [], known => { known }
  | level :: rest, known =>
      let runs :=
        level.tasks.map fun task => solver.runTask { known } task.nodes
      let steps := runs.flatMap TaskRun.steps
      match runs.findSome? TaskRun.failure with
      | some failure => { known, steps, failure := some failure }
      | none =>
          let later := solver.runLevels rest (steps.foldl commitStep known)
          { later with steps := steps ++ later.steps }

/-- The wires known before the first level: one, the public inputs and the
secret inputs. -/
def initialValues (solver : Solver p)
    (publicInputs secretInputs : List (Fp p)) : Array (Option (Fp p)) :=
  let inputs := (1 :: (publicInputs ++ secretInputs)).map some
  (inputs ++
    List.replicate (solver.system.layout.numWires - inputs.length) none).toArray

/-- Runs the schedule on inputs of the right numbers. -/
def trace (solver : Solver p) (publicInputs secretInputs : List (Fp p)) :
    Trace p :=
  solver.runLevels solver.system.schedule.levels
    (solver.initialValues publicInputs secretInputs)

/-! ## Solutions -/

/-- Checks the numbers of inputs, the public ones first. -/
def checkInputs (solver : Solver p) (publicInputs secretInputs : List (Fp p)) :
    Except SolveError Unit :=
  let layout := solver.system.layout
  let expected := layout.numPublic.toNat - 1
  if publicInputs.length ≠ expected then
    .error (.inputCountMismatch .publicInput expected publicInputs.length)
  else if secretInputs.length ≠ layout.numSecret.toNat then
    .error (.inputCountMismatch .secretInput layout.numSecret.toNat
      secretInputs.length)
  else .ok ()

/-- The values of all wires, or the first wire without one. -/
def complete : Nat → List (Option (Fp p)) → Except SolveError (List (Fp p))
  | _, [] => .ok []
  | wire, none :: _ => .error (.unresolvedWire wire)
  | wire, some value :: rest =>
      match complete (wire + 1) rest with
      | .ok values => .ok (value :: values)
      | .error e => .error e

/-- The rows of the constraints in order, from the records of a run. -/
def rowsOf (count : Nat) (steps : List (Step p)) : List (Row p) :=
  (steps.foldl (fun rows step => rows.setIfInBounds step.constraint step.row)
    (Array.replicate count ⟨0, 0, 0⟩)).toList

/-- The solution of a run that came to its end: after the rows of the
constraints there is one row for each public wire, with the value of the wire on
the left. -/
def solutionOf (solver : Solver p) (witness : List (Fp p))
    (steps : List (Step p)) : Solution p :=
  let rows := rowsOf solver.system.numConstraints steps
  let publicValues := witness.take solver.system.layout.numPublic.toNat
  let zeros := publicValues.map fun _ => 0
  { a := rows.map Row.left ++ publicValues
    b := rows.map Row.right ++ zeros
    c := rows.map Row.output ++ zeros
    witness }

/-- Solves for every wire. The public inputs do not include the one wire. Where
sums of counts have wrapped around, the inputs or the rows do not fit into the
lists made for them. -/
def solve (solver : Solver p) (publicInputs secretInputs : List (Fp p)) :
    Outcome SolveError (Solution p) := do
  Outcome.ofExcept (solver.checkInputs publicInputs secretInputs)
  if !solver.system.countsFit then Outcome.abandon .outOfBounds
  else
    let trace := solver.trace publicInputs secretInputs
    match trace.failure with
    | some failure => .error failure
    | none =>
        let witness ← Outcome.ofExcept (complete 0 trace.known.toList)
        return solver.solutionOf witness trace.steps

end Solver

end RankOne
