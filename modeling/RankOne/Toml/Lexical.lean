import RankOne.Toml.Scanner

/-!
# Words of a TOML document

White space, comments, strings, keys, numbers and dates. Numbers and dates are
recognised in full, limits included: an integer has 64 bits, a float must not
exceed the largest double, and a date must exist.
-/

namespace RankOne.Toml

open Scanner

/-! ## White space and comments -/

/-- A blank or a tab. -/
def isBlank (c : Char) : Bool := c == ' ' || c == '\t'

/-- A tab or a character that is no control character. -/
def isPlain (c : Char) : Bool :=
  c == '\t' || (0x20 ≤ c.toNat && c.toNat != 0x7F)

/-- White space within a line. -/
def blanks : Scanner Unit := do
  let _ ← run isBlank

/-- The end of a line, with or without a carriage return. -/
def newline : Scanner Unit := text ['\n'] <|> text ['\r', '\n']

/-- The end of a line or of the document. -/
def lineEnd : Scanner Unit := newline <|> atEnd

/-- A comment, without the end of its line. -/
def comment : Scanner Unit := do
  char '#'
  let _ ← run isPlain

/-- What may follow at the end of a line. -/
def lineRest : Scanner Unit := do
  blanks
  let _ ← perhaps comment
  lineEnd

/-- White space, comments and ends of lines. -/
def blankLines : Scanner Unit := do
  blanks
  let _ ← many (do
    let _ ← perhaps comment
    newline
    blanks)

/-! ## Strings -/

/-- The value of a hexadecimal digit. -/
def hexValue (c : Char) : Nat :=
  if c.isDigit then c.toNat - '0'.toNat
  else if c.isUpper then c.toNat - 'A'.toNat + 10
  else c.toNat - 'a'.toNat + 10

/-- A hexadecimal digit of either case. -/
def isHexDigit (c : Char) : Bool :=
  c.isDigit || ('a' ≤ c && c ≤ 'f') || ('A' ≤ c && c ≤ 'F')

/-- The number for some digits, highest first. -/
def numberOf (base : Nat) (digits : List Char) : Nat :=
  digits.foldl (fun n digit => n * base + hexValue digit) 0

/-- The character given by a fixed number of hexadecimal digits. -/
def codePoint (digits : Nat) : Scanner Char := do
  let code := numberOf 16 (← exactly isHexDigit digits)
  if code.isValidChar then return Char.ofNat code else failure

/-- An escape sequence in a basic string. -/
def escape : Scanner Char := do
  char '\\'
  match ← charIf fun _ => true with
  | 'b' => return '\x08'
  | 't' => return '\t'
  | 'n' => return '\n'
  | 'f' => return '\x0c'
  | 'r' => return '\r'
  | '"' => return '"'
  | '\\' => return '\\'
  | 'u' => codePoint 4
  | 'U' => codePoint 8
  | _ => failure

/-- A character that stands for itself in a basic string. -/
def isBasic (c : Char) : Bool := isPlain c && c != '"' && c != '\\'

/-- A character that stands for itself in a literal string. -/
def isLiteral (c : Char) : Bool := isPlain c && c != '\''

/-- A string in double quotes on one line. -/
def basicString : Scanner String := do
  char '"'
  let chars ← many (charIf isBasic <|> escape)
  char '"'
  return String.ofList chars

/-- A string in single quotes on one line. -/
def literalString : Scanner String := do
  char '\''
  let chars ← run isLiteral
  char '\''
  return String.ofList chars

/-- An end of a line as a character of a string of several lines. -/
def newlineChar : Scanner (List Char) := do
  newline
  return ['\n']

/-- A backslash at the end of a line: it hides white space up to the next
visible character. -/
def hiddenBreak : Scanner (List Char) := do
  char '\\'
  blanks
  newline
  let _ ← many ((do let _ ← charIf isBlank) <|> newline)
  return []

/-- Characters of a basic string of several lines, other than quotes. -/
def basicContent : Scanner (List Char) :=
  runOne isBasic <|> hiddenBreak <|> (do return [← escape]) <|> newlineChar

/-- Characters of a literal string of several lines, other than quotes. -/
def literalContent : Scanner (List Char) := runOne isLiteral <|> newlineChar

/-- One or two quotes in front of something that is not read. -/
def quotesBefore {α : Type} (quote : Char) (next : Scanner α) :
    Scanner (List Char) :=
  let followed := fun quotes => do
    text quotes
    let rest ← get
    let _ ← next
    set rest
    return quotes
  followed [quote, quote] <|> followed [quote]

/-- A string of several lines between triple quotes. The first end of line is
left out, and one or two quotes may stand anywhere in it, also at its end. -/
def longString (quote : Char) (content : Scanner (List Char)) :
    Scanner String := do
  let delimiter := text [quote, quote, quote]
  delimiter
  let _ ← perhaps newline
  let pieces ← many (content <|> quotesBefore quote content)
  let final ← perhaps (quotesBefore quote delimiter)
  delimiter
  return String.ofList (pieces.flatten ++ final.getD [])

/-- A string of any kind. -/
def string : Scanner String :=
  longString '"' basicContent <|> basicString <|>
    longString '\'' literalContent <|> literalString

/-! ## Keys -/

/-- A character of a bare key. -/
def isBare (c : Char) : Bool := c.isAlphanum || c == '-' || c == '_'

/-- A key without dots. -/
def simpleKey : Scanner String :=
  basicString <|> literalString <|> (do return String.ofList (← runOne isBare))

/-- The number from which on the parts of a key are too many. -/
def depthLimit : Nat := 80

/-- A key with its parts, which dots separate. -/
def key : Scanner (List String) := do
  let part := do
    blanks
    let name ← simpleKey
    blanks
    return name
  let parts ← separated part (char '.')
  check (parts.length < depthLimit)
  return parts

/-! ## Numbers -/

/-- Digits, with single underscores between digits left out. -/
def digitRun (accepts : Char → Bool) : Scanner (List Char) := do
  let first ← charIf accepts
  let rest ← many (charIf accepts <|> (do char '_'; charIf accepts))
  return first :: rest

/-- A sign; true stands for minus. -/
def sign : Scanner Bool := do
  match ← perhaps (charIf fun c => c == '+' || c == '-') with
  | some '-' => return true
  | _ => return false

/-- Decimal digits without a superfluous zero in front. -/
def decimalDigits : Scanner (List Char) := do
  match ← peek with
  | some '0' => return [← charIf (· == '0')]
  | _ => digitRun Char.isDigit

/-- An integer with a prefix that tells its base. -/
def prefixedInteger (mark : Char) (base : Nat) (accepts : Char → Bool) :
    Scanner Int := do
  text ['0', mark]
  return numberOf base (← digitRun accepts)

/-- A decimal integer. -/
def decimalInteger : Scanner Int := do
  let negative ← sign
  let magnitude : Int := numberOf 10 (← decimalDigits)
  return if negative then -magnitude else magnitude

/-- An integer of 64 bits. -/
def integer : Scanner Int := do
  let value ←
    prefixedInteger 'x' 16 isHexDigit <|>
    prefixedInteger 'o' 8 (fun c => '0' ≤ c && c ≤ '7') <|>
    prefixedInteger 'b' 2 (fun c => c == '0' || c == '1') <|>
    decimalInteger
  check (Int64.minValue.toInt ≤ value && value ≤ Int64.maxValue.toInt)
  return value

-- Powers of numbers are those of the language, also beside an algebra library.
attribute [local instance (2000)] instPowNat

/-- Whether `mantissa · 10 ^ exponent`, for a mantissa of `digits` digits, is
rounded to something beyond the largest double. The bound lies halfway between
the largest double and the next power of two. -/
def exceedsDouble (digits mantissa : Nat) (exponent : Int) : Bool :=
  let magnitude := exponent + digits
  if mantissa = 0 ∨ magnitude < 300 then false
  else if 310 + digits < magnitude then true
  else
    let bound := (1 <<< 1024) - (1 <<< 970)
    if 0 ≤ exponent then bound ≤ mantissa * 10 ^ exponent.toNat
    else bound * 10 ^ (-exponent).toNat ≤ mantissa

/-- The exponent of a float. -/
def exponent : Scanner Int := do
  let _ ← charIf fun c => c == 'e' || c == 'E'
  let negative ← sign
  let magnitude : Int := numberOf 10 (← digitRun Char.isDigit)
  return if negative then -magnitude else magnitude

/-- The digits after the point of a float. -/
def fraction : Scanner (List Char) := do
  char '.'
  digitRun Char.isDigit

/-- A float in digits, with a fraction or an exponent or both. -/
def decimalFloat : Scanner Unit := do
  let negative ← sign
  let whole ← decimalDigits
  let decimals ← perhaps fraction
  let power ← perhaps exponent
  check (decimals.isSome || power.isSome)
  let digits := whole ++ decimals.getD []
  let scale := power.getD 0 - (decimals.getD []).length
  check (negative || !exceedsDouble digits.length (numberOf 10 digits) scale)

/-- Infinity or no number. -/
def specialFloat : Scanner Unit := do
  let _ ← sign
  text ['i', 'n', 'f'] <|> text ['n', 'a', 'n']

/-- A float, as it is written. -/
def float : Scanner String := do
  return String.ofList (← consumed (decimalFloat <|> specialFloat))

/-! ## Dates and times -/

/-- A number of a fixed number of digits within bounds. -/
def bounded (digits low high : Nat) : Scanner Nat := do
  let value := numberOf 10 (← exactly Char.isDigit digits)
  check (low ≤ value && value ≤ high)
  return value

/-- The number of days of a month. -/
def daysIn (year month : Nat) : Nat :=
  if month = 2 then
    if year % 4 = 0 ∧ (year % 100 ≠ 0 ∨ year % 400 = 0) then 29 else 28
  else if month = 4 ∨ month = 6 ∨ month = 9 ∨ month = 11 then 30
  else 31

/-- A date. -/
def date : Scanner Unit := do
  let year ← bounded 4 0 9999
  char '-'
  let month ← bounded 2 1 12
  char '-'
  let _ ← bounded 2 1 (daysIn year month)

/-- A time of day; a minute may have a leap second. -/
def time : Scanner Unit := do
  let _ ← bounded 2 0 23
  char ':'
  let _ ← bounded 2 0 59
  char ':'
  let _ ← bounded 2 0 60
  let _ ← perhaps (do
    char '.'
    runOne Char.isDigit)

/-- The distance from universal time. -/
def offset : Scanner Unit :=
  (do let _ ← charIf fun c => c == 'Z' || c == 'z') <|> (do
    let _ ← charIf fun c => c == '+' || c == '-'
    let _ ← bounded 2 0 23
    char ':'
    let _ ← bounded 2 0 59)

/-- A date with or without a time, or a time. -/
def moment : Scanner Unit :=
  (do
    date
    let _ ← perhaps (do
      let _ ← charIf fun c => c == 'T' || c == 't' || c == ' '
      time
      perhaps offset)) <|> time

/-- A date or time, as it is written. -/
def datetime : Scanner String := do return String.ofList (← consumed moment)

end RankOne.Toml
