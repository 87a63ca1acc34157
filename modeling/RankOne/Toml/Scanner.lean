/-!
# Reading text

A scanner reads from the front of a list of characters and either yields a value
with the characters that are left or fails. A choice tries its second branch
where its first branch began. Repetition stops where its scanner fails; it is
bounded by the number of characters that are left, which is enough for scanners
that read at least one character each time.
-/

namespace RankOne.Toml

/-- A computation that reads from the front of a text. -/
abbrev Scanner := StateT (List Char) Option

namespace Scanner

/-- The next character, which stays where it is. -/
def peek : Scanner (Option Char) := fun input => some (input.head?, input)

/-- The next character, if it is accepted. -/
def charIf (accepts : Char → Bool) : Scanner Char
  | [] => none
  | c :: rest => if accepts c then some (c, rest) else none

/-- A particular character. -/
def char (c : Char) : Scanner Unit := do
  let _ ← charIf (· == c)

/-- Particular characters in a row. -/
def text : List Char → Scanner Unit
  | [] => return ()
  | c :: rest => do
      char c
      text rest

/-- The longest run of accepted characters. -/
def run (accepts : Char → Bool) : Scanner (List Char) := fun input =>
  some (input.takeWhile accepts, input.dropWhile accepts)

/-- A nonempty run of accepted characters, as long as possible. -/
def runOne (accepts : Char → Bool) : Scanner (List Char) := do
  let first ← charIf accepts
  let rest ← run accepts
  return first :: rest

/-- A fixed number of accepted characters. -/
def exactly (accepts : Char → Bool) : Nat → Scanner (List Char)
  | 0 => return []
  | count + 1 => do
      let first ← charIf accepts
      let rest ← exactly accepts count
      return first :: rest

/-- Succeeds at the end of the text. -/
def atEnd : Scanner Unit :=
  fun input => if input.isEmpty then some ((), input) else none

/-- The value of a scanner if it succeeds; otherwise nothing is read. -/
def perhaps {α : Type} (scanner : Scanner α) : Scanner (Option α) :=
  fun input =>
  match scanner input with
  | some (a, rest) => some (some a, rest)
  | none => some (none, input)

/-- Repeats a scanner as long as it succeeds, at most `bound` times. -/
def repeatUpTo {α : Type} (scanner : Scanner α) : Nat → Scanner (List α)
  | 0 => return []
  | bound + 1 => do
      match ← perhaps scanner with
      | none => return []
      | some a => return a :: (← repeatUpTo scanner bound)

/-- Repeats a scanner as long as it succeeds. -/
def many {α : Type} (scanner : Scanner α) : Scanner (List α) := fun input =>
  repeatUpTo scanner input.length input

/-- One or more values with a separator between neighbours. -/
def separated {α β : Type} (scanner : Scanner α) (separator : Scanner β) :
    Scanner (List α) := do
  let first ← scanner
  let rest ← many (do let _ ← separator; scanner)
  return first :: rest

/-- The value that a check allows. -/
def require {α : Type} : Option α → Scanner α
  | some a => return a
  | none => failure

/-- Fails unless a condition holds. -/
def check (condition : Bool) : Scanner Unit :=
  if condition then return () else failure

/-- The characters that a scanner reads. -/
def consumed {α : Type} (scanner : Scanner α) : Scanner (List Char) :=
  fun input =>
  match scanner input with
  | some (_, rest) => some (input.take (input.length - rest.length), rest)
  | none => none

end Scanner

end RankOne.Toml
