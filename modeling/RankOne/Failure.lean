/-!
# Reported errors and faults

An operation of the library ends in one of three ways: with a result, with an
error of its own that a caller may report, or with a fault. A fault means that
the input lies outside what the operation can handle at all, for instance hints
that read each other in a circle, and that the whole computation is abandoned.

`Failure ε` keeps the two kinds of bad ending apart, so that a statement such as
"never faults" is about one constructor.
-/

namespace RankOne

/-- Causes that abandon a computation. -/
inductive Fault where
  /-- A position outside a list or table was read. -/
  | outOfBounds
  /-- A list longer than memory can address was asked for. -/
  | capacityOverflow
  /-- A sum of counts is no word. -/
  | countOverflow
  /-- The hint whose first output is `wire` needs its own outputs as inputs. -/
  | hintReadsItself (wire : Nat)
  /-- The hint whose first output is `wire` reads `read` before a constraint
  resolves it. -/
  | hintReadsUnresolved (wire read : Nat)
  /-- The dependency graph has a cycle: a round of levelling placed no node. -/
  | cyclicDependencies
  /-- Levelling ended with nodes left over. -/
  | unplacedConstraints (placed total : Nat)
  /-- The three row vectors of a quotient differ in length. -/
  | rowCountsDiffer (left right output : Nat)
  /-- There are more rows than points in the domain. -/
  | rowsExceedDomain (rows points : Nat)
deriving DecidableEq, Repr

namespace Fault

/-- The text of a fault that the library states itself; the others have none. -/
def message? : Fault → Option String
  | outOfBounds => none
  | capacityOverflow => none
  | countOverflow => none
  | hintReadsItself wire =>
      some s!"hint for wire {wire} reads its own outputs through other hints"
  | hintReadsUnresolved wire read =>
      some s!"hint for wire {wire} reads wire {read} before any constraint resolves it"
  | cyclicDependencies => some "constraint dependency graph has a cycle"
  | unplacedConstraints placed total =>
      some s!"level clustering placed {placed} of {total} constraints; the dependency graph has a cycle"
  | rowCountsDiffer left right output =>
      some s!"QAP vectors differ in length: {left} / {right} / {output}"
  | rowsExceedDomain rows points =>
    some s!"QAP has {rows} rows, domain has {points}"

end Fault

/-- A bad ending: an error that is reported, or a fault. -/
inductive Failure (ε : Type) where
  | reported (error : ε)
  | fault (fault : Fault)
deriving DecidableEq, Repr

namespace Failure

/-- Rephrases the reported error and passes a fault on unchanged. -/
def map {ε ε' : Type} (f : ε → ε') : Failure ε → Failure ε'
  | reported error => reported (f error)
  | fault cause => fault cause

end Failure

/-- The outcome of an operation that may report errors of type `ε` or fault. -/
abbrev Outcome (ε α : Type) := Except (Failure ε) α

namespace Outcome

/-- Ends with a reported error. -/
def report {ε α : Type} (error : ε) : Outcome ε α := .error (.reported error)

/-- Ends with a fault. -/
def abandon {ε α : Type} (cause : Fault) : Outcome ε α := .error (.fault cause)

/-- Embeds an operation that cannot fault. -/
def ofExcept {ε α : Type} : Except ε α → Outcome ε α
  | .ok a => .ok a
  | .error e => report e

/-- Embeds an operation that can only fault. -/
def ofFaulty {ε α : Type} : Except Fault α → Outcome ε α
  | .ok a => .ok a
  | .error cause => abandon cause

/-- Rephrases the reported error of an outcome. -/
def rephrase {ε ε' α : Type} (f : ε → ε') : Outcome ε α → Outcome ε' α
  | .ok a => .ok a
  | .error failure => .error (failure.map f)

end Outcome

end RankOne
