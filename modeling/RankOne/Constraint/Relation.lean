import RankOne.Constraint.CompiledSystem

/-!
# The relation between public values and a witness

Setup and verification know a system as a relation: its public wires other than
the one wire become inputs, all other wires become witness variables, and every
expression becomes a linear form in which each variable occurs once. A system
and its relation are satisfied by the same wire values.
-/

namespace RankOne

/-- A variable of a relation: the constant one, or an input or witness variable
by its place. -/
inductive Variable where
  | one
  | input (place : Nat)
  | witness (place : Nat)
deriving DecidableEq, Repr

/-- A sum of coefficients times variables, no variable twice. -/
abbrev LinearForm (p : Nat) := List (Variable × Fp p)

namespace LinearForm

variable {p : Nat}

/-- Adds a coefficient to that of a variable. -/
def addTerm (coefficient : Fp p) (target : Variable) :
    LinearForm p → LinearForm p
  | [] => [(target, coefficient)]
  | (other, sum) :: rest =>
      if other = target then (other, sum + coefficient) :: rest
      else (other, sum) :: addTerm coefficient target rest

/-- The coefficient of a variable. -/
def coefficient [Modulus p] (form : LinearForm p) (target : Variable) : Fp p :=
  (form.lookup target).getD 0

end LinearForm

/-- The constraint `left · right = output` between linear forms. -/
structure RelationRow (p : Nat) where
  left : LinearForm p
  right : LinearForm p
  output : LinearForm p
deriving DecidableEq

/-- A relation between inputs and witness variables. -/
structure Relation (p : Nat) where
  numInputs : Nat
  numWitness : Nat
  rows : List (RelationRow p)
deriving DecidableEq

/-- Values for all variables of a relation. -/
structure Assignment (p : Nat) where
  inputs : List (Fp p)
  witness : List (Fp p)
deriving DecidableEq

namespace Assignment

variable {p : Nat} [Modulus p]

/-- The value of a variable. -/
def value (assignment : Assignment p) : Variable → Fp p
  | .one => 1
  | .input place => assignment.inputs.getD place 0
  | .witness place => assignment.witness.getD place 0

/-- The value of a linear form. -/
def eval (assignment : Assignment p) (form : LinearForm p) : Fp p :=
  form.foldr (fun (target, coefficient) sum =>
    coefficient * assignment.value target + sum) 0

/-- Whether an assignment satisfies every row of a relation. -/
def satisfies (assignment : Assignment p) (relation : Relation p) : Bool :=
  relation.rows.all fun row =>
    assignment.eval row.left * assignment.eval row.right =
      assignment.eval row.output

end Assignment

namespace Relation

variable {p : Nat}

/-- Number of variables that are public: the one and the inputs. -/
def numPublic (relation : Relation p) : Nat := relation.numInputs + 1

/-- All variables in the order of the wires they stand for. -/
def allVariables (relation : Relation p) : List Variable :=
  .one :: (List.range relation.numInputs).map .input ++
    (List.range relation.numWitness).map .witness

end Relation

namespace CompiledSystem

variable {p : Nat}

/-- Number of public wires other than the one wire, as far as there are
wires. -/
def inputCount (system : CompiledSystem p) : Nat :=
  min system.layout.numWires system.layout.numPublic.toNat - 1

/-- Number of wires that are not public. -/
def witnessCount (system : CompiledSystem p) : Nat :=
  system.layout.numWires - 1 - system.inputCount

/-- The variable that a wire becomes. -/
def variableOf (system : CompiledSystem p) (wire : Nat) : Variable :=
  if wire = 0 then .one
  else if wire < system.layout.numPublic.toNat then .input (wire - 1)
  else .witness (wire - system.layout.numPublic.toNat)

variable [Modulus p]

/-- The linear form of an expression. -/
def formOf (system : CompiledSystem p) (terms : Expression) : LinearForm p :=
  terms.foldl
    (fun form term =>
      form.addTerm (system.coefficients.getD term.slot.toNat 0)
        (system.variableOf term.wire))
    []

/-- The relation of a system. -/
def relation (system : CompiledSystem p) : Relation p where
  numInputs := system.inputCount
  numWitness := system.witnessCount
  rows := system.constraints.toList.map fun c =>
    ⟨system.formOf c.left, system.formOf c.right, system.formOf c.output⟩

/-- Distributes wire values over the variables, if there are enough of them. The
value of the one wire is not looked at, and values beyond the last wire are left
out. -/
def assign? (system : CompiledSystem p) (wires : List (Fp p)) :
    Option (Assignment p) :=
  if 1 < system.layout.numWires ∧ wires.length < system.layout.numWires then
    none
  else
    let values := (wires.take system.layout.numWires).drop 1
    some {
      inputs := values.take system.inputCount
      witness := values.drop system.inputCount }

end CompiledSystem

end RankOne
