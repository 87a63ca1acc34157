import RankOne.Constraint.FlatSystem

/-!
# Which constraint resolves which wire

One pass over the constraints in order decides where each wire that is not an
input gets its value. A plain internal wire is resolved by the first constraint
that mentions it. A hint is resolved by the first constraint that mentions one
of its outputs, or that resolves a hint reading them; resolving a hint first
resolves the hints whose outputs it reads.

A constraint depends on the constraints that resolved the other wires it reads,
directly or through its hints, and it is charged a weight: one per term, twenty
for a wire it has to solve, ten per input and output of a hint it runs.

The pass faults when a hint needs its own outputs, or reads a plain wire that no
earlier constraint resolves.
-/

namespace RankOne

/-- What one constraint costs and what it waits for: the constraints it depends
on are in strictly decreasing order. -/
structure NodeCost where
  dependencies : List Nat := []
  weight : Nat := 0
  /-- Whether it runs a hint whose function the caller supplies. -/
  custom : Bool := false
deriving DecidableEq, Repr

/-- Inserts a number into a strictly decreasing list, unless it is there. -/
def insertDecreasing (n : Nat) : List Nat → List Nat
  | [] => [n]
  | m :: rest =>
      if m < n then n :: m :: rest
      else if m = n then m :: rest
      else m :: insertDecreasing n rest

namespace NodeCost

/-- Weight per input and per output of a hint. -/
def hintWeight : Nat := 10

/-- Weight of solving for a wire. -/
def solveWeight : Nat := 20

/-- Adds weight. -/
def charge (cost : NodeCost) (weight : Nat) : NodeCost :=
  { cost with weight := cost.weight + weight }

/-- Adds a dependency. -/
def dependOn (cost : NodeCost) (node : Nat) : NodeCost :=
  { cost with dependencies := insertDecreasing node cost.dependencies }

/-- Charges for a hint. -/
def chargeHint {p : Nat} (cost : NodeCost) (hint : Hint p) : NodeCost :=
  { cost with
    weight :=
      cost.weight + (hint.inputs.length + hint.wires.length) * hintWeight
    custom := cost.custom || hint.kind.isCustom }

end NodeCost

/-- The pass while it is at one constraint: who resolves what so far, and the
constraint's cost. -/
structure ResolutionState where
  resolver : Std.TreeMap Nat Nat
  cost : NodeCost

namespace ResolutionState

/-- Records that `node` reads a wire resolved by `owner`; its own wires are no
dependency. -/
def read (state : ResolutionState) (node owner : Nat) : ResolutionState :=
  if owner = node then state
    else { state with cost := state.cost.dependOn owner }

/-- Records that `node` resolves the given wires. -/
def resolve (state : ResolutionState) (node : Nat) (wires : List Nat) :
    ResolutionState :=
  { state with resolver := wires.foldl (fun map wire =>
      map.insert wire node) state.resolver }

end ResolutionState

/-- The result of the pass. -/
structure Resolution where
  resolver : Std.TreeMap Nat Nat
  costs : List NodeCost

namespace ValidSystem

variable {p : Nat}

/-- Handles a term that the hint with first output `reader` reads: an output of
a pending hint is resolved through `resolveHint`, any other wire must be an
input or resolved already. -/
def resolveHintTerm (system : ValidSystem p) (node reader : Nat)
    (resolveHint : Nat → Hint p → ResolutionState →
      Except Fault ResolutionState) (state : ResolutionState) (term : Term) :
    Except Fault ResolutionState :=
  if term.wire < system.layout.numInputs then .ok state
  else
    match state.resolver[term.wire]? with
    | some owner => .ok (state.read node owner)
    | none =>
        match system.hintFor? term.wire with
        | some (number, hint) => resolveHint number hint state
        | none => .error (.hintReadsUnresolved reader term.wire)

/-- Resolves a hint at constraint `node`. `pending` lists the hints that wait
for this one; a hint found among them needs its own outputs. Pending hints are
distinct, so as many levels as there are hints, and one more, suffice. -/
def resolveHint (system : ValidSystem p) (node : Nat) :
    Nat → List Nat → Nat → Hint p → ResolutionState →
      Except Fault ResolutionState
  | 0, _, _, hint, _ => .error (.hintReadsItself hint.firstWire)
  | levels + 1, pending, number, hint, state =>
      if number ∈ pending then .error (.hintReadsItself hint.firstWire)
      else
        let charged := { state with cost := state.cost.chargeHint hint }
        match hint.terms.foldlM
            (system.resolveHintTerm node hint.firstWire
              (resolveHint system node levels (number :: pending)))
            charged with
        | .error cause => .error cause
        | .ok settled => .ok (settled.resolve node hint.wires)

/-- Handles a term of constraint `node` itself. -/
def resolveTerm (system : ValidSystem p) (node : Nat) (state : ResolutionState)
    (term : Term) : Except Fault ResolutionState :=
  let charged := { state with cost := state.cost.charge 1 }
  if term.wire < system.layout.numInputs then .ok charged
  else
    match state.resolver[term.wire]? with
    | some owner => .ok (charged.read node owner)
    | none =>
        match system.hintFor? term.wire with
        | some (number, hint) =>
            system.resolveHint node (system.hints.size +
              1) [] number hint charged
        | none =>
            .ok ({ charged with
              cost := charged.cost.charge NodeCost.solveWeight }.resolve node
              [term.wire])

/-- Resolves the constraints from number `node` on. -/
def resolveFrom (system : ValidSystem p) :
    Nat → List Constraint → Std.TreeMap Nat Nat → Except Fault Resolution
  | _, [], resolver => .ok ⟨resolver, []⟩
  | node, c :: rest, resolver =>
      match c.terms.foldlM (system.resolveTerm node) ⟨resolver, {}⟩ with
      | .error cause => .error cause
      | .ok state =>
          match system.resolveFrom (node + 1) rest state.resolver with
          | .error cause => .error cause
          | .ok resolution =>
            .ok { resolution with costs := state.cost :: resolution.costs }

/-- Finds out for every wire which constraint resolves it, and the cost of every
constraint. -/
def resolution (system : ValidSystem p) : Except Fault Resolution :=
  system.resolveFrom 0 system.constraints.toList ∅

end ValidSystem

end RankOne
