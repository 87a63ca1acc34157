/-!
# Hexadecimal text

Bytes are written with two lowercase digits each. Reading works on the UTF-8
bytes of the text, accepts digits of either case, and refuses an odd number of
them before it looks at any.
-/

namespace RankOne.Hex

/-- Why a text is no hexadecimal text. -/
inductive Error where
  | oddLength
  | invalidCharacter (byte : UInt8) (position : Nat)
deriving DecidableEq, Repr

/-- The lowercase digit for a value below sixteen. -/
def digit (value : Nat) : Char := "0123456789abcdef".toList.getD value '0'

/-- The value of a digit of either case. -/
def digitValue? (byte : UInt8) : Option UInt8 :=
  if 48 ≤ byte ∧ byte ≤ 57 then some (byte - 48)
  else if 97 ≤ byte ∧ byte ≤ 102 then some (byte - 87)
  else if 65 ≤ byte ∧ byte ≤ 70 then some (byte - 55)
  else none

/-- The digits of a number in base sixteen, without leading zeros. -/
def ofNat (n : Nat) : String := String.ofList (Nat.toDigits 16 n)

/-- The two digits of a byte. -/
def encodeByte (byte : UInt8) : List Char :=
  [digit (byte.toNat / 16), digit (byte.toNat % 16)]

/-- The text for some bytes. -/
def encode (bytes : List UInt8) : String :=
  String.ofList (bytes.flatMap encodeByte)

/-- Reads pairs of digits, the first of which stands at `position`. -/
def decodePairs : Nat → List UInt8 → Except Error (List UInt8)
  | _, [] => .ok []
  | _, [_] => .error .oddLength
  | position, high :: low :: rest =>
      match digitValue? high with
      | none => .error (.invalidCharacter high position)
      | some upper =>
          match digitValue? low with
          | none => .error (.invalidCharacter low (position + 1))
          | some lower =>
              match decodePairs (position + 2) rest with
              | .error e => .error e
              | .ok bytes => .ok ((upper * 16 + lower) :: bytes)

/-- Reads a text whose bytes are given. -/
def decodeBytes (text : List UInt8) : Except Error (List UInt8) :=
  if text.length % 2 = 1 then .error .oddLength else decodePairs 0 text

/-- Reads a text. -/
def decode (text : String) : Except Error (List UInt8) :=
  decodeBytes text.toUTF8.toList

/-- Whether a character of the first 256 code points shows as itself: it is no
control character, no space other than the plain one, and not the soft
hyphen. -/
def isPrintable (code : Nat) : Bool :=
  (32 ≤ code && code < 127) || (161 ≤ code && code != 173)

/-- The quoted form of the character with the given code: a backslash escape
where there is one, the character itself if it is printable, and its code
otherwise. -/
def quoteCharacter (code : Nat) : String :=
  let body :=
    if code = 0 then "\\0"
    else if code = 9 then "\\t"
    else if code = 10 then "\\n"
    else if code = 13 then "\\r"
    else if code = 39 then "\\'"
    else if code = 92 then "\\\\"
    else if isPrintable code then String.singleton (Char.ofNat code)
    else "\\u\x7b" ++ ofNat code ++ "\x7d"
  "'" ++ body ++ "'"

namespace Error

/-- The text of a reading error. -/
def message : Error → String
  | oddLength => "Odd number of digits"
  | invalidCharacter byte position =>
      "Invalid character " ++ quoteCharacter byte.toNat ++ " at position " ++
        toString position

end Error

end RankOne.Hex
