/-!
# Tables of a TOML document

A document is a table of named nodes. Where a table comes from decides what may
be added to it later:

- a table with a header of its own is complete when the next header begins, and
  only headers lead into it;
- a table that is only a step on the way to a header may still get its own;
- a table that is only a step of a dotted key may be continued by dotted keys;
- an inline table is complete.

An array of tables is entered through its last table.

## Main definitions

- `Node`, `Table`: values and tables;
- `Table.modify`: changes the table at the end of a path;
- `Table.insert`: enters a value under a dotted key;
- `Table.openTable`, `Table.openElement`: what a header does.
-/

namespace RankOne.Toml

/-- Where a table comes from. -/
inductive Origin where
  /-- It has a header, or is the whole document. -/
  | header
  /-- A header leads through it. -/
  | step
  /-- A dotted key leads through it. -/
  | dotted
  /-- It is written inline. -/
  | inline
deriving DecidableEq, Repr

/-- A value in a document. Floats, dates and times stay as they are written. -/
inductive Node where
  | string (text : String)
  | integer (value : Int)
  | float (text : String)
  | boolean (value : Bool)
  | datetime (text : String)
  | array (items : List Node)
  | table (origin : Origin) (entries : List (String × Node))
  /-- An array of tables with headers, the last one apart. -/
  | tables (earlier : List (List (String × Node))) (last : List (String × Node))

/-- The named nodes of a table. -/
abbrev Entries := List (String × Node)

namespace Entries

/-- Puts a node in the place of the one with its name, or at the end. -/
def set (name : String) (node : Node) : Entries → Entries
  | [] => [(name, node)]
  | (other, old) :: rest =>
      if other = name then (name, node) :: rest
        else (other, old) :: set name node rest

end Entries

/-- A table with its origin. -/
structure Table where
  origin : Origin
  entries : Entries

namespace Table

/-- Whether a path of a given kind may lead through a table of a given origin.
Dotted keys do not lead into tables with headers, and nothing leads into inline
tables. -/
def mayEnter (route : Origin) : Origin → Bool
  | .header => route == .step
  | .step => true
  | .dotted => true
  | .inline => false

/-- Changes the entries of the table at the end of a path. Tables that are
missing on the way get the kind of the path as their origin. -/
def modify (route : Origin) (change : Table → Option Entries) :
    List String → Table → Option Entries
  | [], table => change table
  | name :: path, table =>
      match table.entries.lookup name with
      | none => do
          let inner ← modify route change path ⟨route, []⟩
          return table.entries.set name (.table route inner)
      | some (.table origin entries) => do
          if mayEnter route origin then
            let inner ← modify route change path ⟨origin, entries⟩
            return table.entries.set name (.table origin inner)
          else failure
      | some (.tables earlier last) => do
          let inner ← modify route change path ⟨.header, last⟩
          return table.entries.set name (.tables earlier inner)
      | some _ => failure

/-- Enters a new name. -/
def insertNew (name : String) (node : Node) (table : Table) : Option Entries :=
  if (table.entries.lookup name).isNone then
    some (table.entries.set name node) else none

/-- Enters a value under a dotted key with parts `path` and `name`. At the end
of a path of at least one part there must be a table that dotted keys have
made. -/
def insert (path : List String) (name : String) (node : Node) (table : Table) :
    Option Entries :=
  modify .dotted
    (fun inner => do
      if (inner.origin == .dotted) == path.isEmpty then failure
        else inner.insertNew name node)
    path table

/-- Begins the table of a header: it is new or was a mere step so far. -/
def openTable (path : List String) (name : String) (table : Table) :
    Option Entries :=
  modify .step
    (fun parent =>
      match parent.entries.lookup name with
      | none => some (parent.entries.set name (.table .header []))
      | some (.table .step entries) =>
        some (parent.entries.set name (.table .header entries))
      | some _ => none)
    path table

/-- Begins the next table of an array of tables. -/
def openElement (path : List String) (name : String) (table : Table) :
    Option Entries :=
  modify .step
    (fun parent =>
      match parent.entries.lookup name with
      | none => some (parent.entries.set name (.tables [] []))
      | some (.tables earlier last) =>
          some (parent.entries.set name (.tables (earlier ++ [last]) []))
      | some _ => none)
    path table

/-- Enters a value under a dotted key into the table that the last header has
begun. -/
def insertUnder (header path : List String) (name : String) (node : Node)
    (table : Table) : Option Entries :=
  modify .step (insert path name node) header table

end Table

end RankOne.Toml
