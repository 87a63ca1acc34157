import RankOne.Artifact.Files
import RankOne.Schedule.Basic
import RankOne.Toml.Document

/-!
# Settings from documents

Settings are read from a TOML document with a table `scheduler`. Settings that
are missing keep their defaults and unknown ones are ignored, but a setting that
is there must have the right type.

The scheduler's settings may also be given as an array, in order. A date has no
setting among its parts, so it leaves all defaults.
-/

namespace RankOne

/-- Settings of the prover. -/
structure ProverSettings where
  scheduler : SchedulerSettings := {}
deriving DecidableEq, Repr

/-- Why no settings can be read. -/
inductive SettingsError where
  | malformed
  | file (cause : FileFault)
deriving DecidableEq, Repr

namespace SettingsError

/-- The text of an error. -/
def message : SettingsError → String
  | malformed => "Invalid configuration"
  | file cause => "Configuration I/O error: " ++ cause.message

end SettingsError

namespace Toml.Node

/-- The value of a count. -/
def count? : Node → Option Nat
  | integer (.ofNat n) => some n
  | _ => none

/-- The value of a switch. -/
def switch? : Node → Option Bool
  | boolean value => some value
  | _ => none

/-- The value of a node that may be missing: nothing if it has the wrong
type. -/
def orDefault {α : Type} (default : α) (read : Node → Option α) :
    Option Node → Option α
  | none => some default
  | some node => read node

end Toml.Node

open Toml (Node Entries)

namespace SchedulerSettings

/-- The settings in two nodes that may be missing. -/
def ofNodes (weight reduce : Option Node) : Option SchedulerSettings := do
  let default : SchedulerSettings := {}
  let maxTaskWeight ← Node.orDefault default.maxTaskWeight Node.count? weight
  let reduceTransitiveEdges ←
    Node.orDefault default.reduceTransitiveEdges Node.switch? reduce
  return { maxTaskWeight, reduceTransitiveEdges }

/-- The settings in a node. -/
def ofNode : Node → Option SchedulerSettings
  | .table _ entries =>
      ofNodes (entries.lookup "max_task_weight")
        (entries.lookup "reduce_transitive_edges")
  | .array items => ofNodes items[0]? items[1]?
  | .datetime _ => some {}
  | _ => none

end SchedulerSettings

namespace ProverSettings

/-- The settings in the entries of a document. -/
def ofEntries (entries : Entries) : Option ProverSettings := do
  let scheduler ← Node.orDefault {} SchedulerSettings.ofNode
    (entries.lookup "scheduler")
  return { scheduler }

/-- Reads settings from a document. -/
def ofToml (document : String) : Except SettingsError ProverSettings :=
  match (Toml.parse document).bind ofEntries with
  | some settings => .ok settings
  | none => .error .malformed

/-- Reads settings from a file. -/
def load (files : Files) (path : Path) : Except SettingsError ProverSettings :=
  match files.readText path with
  | .error cause => .error (.file cause)
  | .ok document => ofToml document

end ProverSettings

end RankOne
