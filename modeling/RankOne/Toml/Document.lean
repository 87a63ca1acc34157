import RankOne.Toml.Lexical
import RankOne.Toml.Node

/-!
# TOML documents

A document is a sequence of comments, headers and values under keys, each on a
line of its own. Arrays and inline tables may be nested, but not too deeply.
-/

namespace RankOne.Toml

open Scanner

/-! ## Values -/

/-- A truth value. -/
def boolean : Scanner Bool :=
  (do text ['t', 'r', 'u', 'e']; return true) <|>
    (do text ['f', 'a', 'l', 's', 'e']; return false)

/-- A value that is no array and no inline table. Dates are tried before
numbers, and floats before integers, because the one may begin like the
other. -/
def simpleValue : Scanner Node :=
  (do return .string (← string)) <|>
    (do return .datetime (← datetime)) <|>
    (do return .float (← float)) <|>
    (do return .integer (← integer)) <|>
    (do return .boolean (← boolean))

/-- An array of values. Values may be spread over lines, and a comma may follow
the last one. -/
def array (value : Scanner Node) : Scanner Node := do
  char '['
  let item := do
    blankLines
    let node ← value
    blankLines
    return node
  let items ← perhaps (do
    let items ← separated item (char ',')
    let _ ← perhaps (char ',')
    return items)
  blankLines
  char ']'
  return .array (items.getD [])

/-- Enters the values of an inline table one after the other. -/
def inlineEntries : List (List String × Node) → Table → Option Entries
  | [], table => some table.entries
  | (parts, node) :: rest, table => do
      let name ← parts.getLast?
      let entries ← table.insert parts.dropLast name node
      inlineEntries rest { table with entries }

/-- A table on one line. -/
def inlineTable (value : Scanner Node) : Scanner Node := do
  char '\x7b'
  let pair := do
    let parts ← key
    char '='
    blanks
    let node ← value
    blanks
    return (parts, node)
  let pairs ← perhaps (separated pair (char ','))
  blanks
  char '\x7d'
  return .table .inline
    (← require (inlineEntries (pairs.getD []) ⟨.header, []⟩))

/-- A value with at most `depth` arrays and inline tables around each other. -/
def value : Nat → Scanner Node
  | 0 => simpleValue
  | depth + 1 =>
    simpleValue <|> array (value depth) <|> inlineTable (value depth)

/-! ## Statements -/

/-- A line of a document that means something. -/
inductive Statement where
  | table (path : List String)
  /-- The header of the next table of an array. -/
  | element (path : List String)
  | value (parts : List String) (node : Node)

/-- A header, up to the end of its line. -/
def header : Scanner Statement :=
  (do
    text ['[', '[']
    let path ← key
    text [']', ']']
    lineRest
    return .element path) <|> (do
    char '['
    let path ← key
    char ']'
    lineRest
    return .table path)

/-- A value under a key, up to the end of its line. -/
def assignment : Scanner Statement := do
  let parts ← key
  char '='
  blanks
  let node ← value (depthLimit - 1)
  lineRest
  return .value parts node

/-- A comment or an empty line, a header or a value, with the white space that
follows. -/
def line : Scanner (Option Statement) := do
  let statement ←
    (do comment; lineEnd; return none) <|>
    (do newline; return none) <|>
    (do return some (← header)) <|>
    (do return some (← assignment))
  blanks
  return statement

/-- The statements of a document. A byte order mark in front is skipped. -/
def statements : Scanner (List Statement) := do
  let _ ← perhaps (char '\ufeff')
  blanks
  let lines ← many line
  atEnd
  return lines.filterMap id

/-! ## Documents -/

/-- What a document holds so far, and the header that is open. -/
structure Draft where
  entries : Entries := []
  header : List String := []

namespace Draft

/-- The document as a table. -/
def root (draft : Draft) : Table := ⟨.header, draft.entries⟩

/-- Carries out a statement. -/
def apply (draft : Draft) : Statement → Option Draft
  | .table path => do
      let entries ← draft.root.openTable path.dropLast (← path.getLast?)
      return { entries, header := path }
  | .element path => do
      let entries ← draft.root.openElement path.dropLast (← path.getLast?)
      return { entries, header := path }
  | .value parts node => do
      let entries ← draft.root.insertUnder draft.header parts.dropLast
        (← parts.getLast?) node
      return { draft with entries }

end Draft

/-- The entries of a document, if its text is well formed. -/
def parse (document : String) : Option Entries := do
  let (statements, _) ← statements document.toList
  let draft ← statements.foldlM Draft.apply {}
  return draft.entries

end RankOne.Toml
