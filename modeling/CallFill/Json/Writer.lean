import CallFill.Json.Value

/-! # Writing JSON

Values are written without blanks. In strings only the quote, the backslash and the control
characters below the blank are escaped. -/

namespace CallFill.Json

/-- The lower-case hexadecimal digit of a number below sixteen. -/
def hexDigit (n : Nat) : Char := Nat.digitChar n

def escape (c : Char) : List Char :=
  if c = '"' then ['\\', '"']
  else if c = '\\' then ['\\', '\\']
  else if c = '\x08' then ['\\', 'b']
  else if c = '\x0c' then ['\\', 'f']
  else if c = '\n' then ['\\', 'n']
  else if c = '\r' then ['\\', 'r']
  else if c = '\t' then ['\\', 't']
  else if c.toNat < 0x20 then
    ['\\', 'u', '0', '0', hexDigit (c.toNat / 16), hexDigit (c.toNat % 16)]
  else [c]

/-- A string between quotes. What is no text is written as half of a pair. -/
def quoteChars : Option String → List Char
  | some s => '"' :: s.toList.flatMap escape ++ ['"']
  | none => ['"', '\\', 'u', 'd', '8', '0', '0', '"']

mutual

def chars : Json → List Char
  | .null => ['n', 'u', 'l', 'l']
  | .bool true => ['t', 'r', 'u', 'e']
  | .bool false => ['f', 'a', 'l', 's', 'e']
  | .natural n => Nat.toDigits 10 n
  | .number text => text.toList
  | .string s => quoteChars s
  | .array [] => ['[', ']']
  | .array (j :: js) => '[' :: chars j ++ itemChars js ++ [']']
  | .object [] => ['\x7b', '\x7d']
  | .object ((name, j) :: fields) =>
    '\x7b' :: quoteChars name ++ ':' :: chars j ++ fieldChars fields ++ ['\x7d']

/-- The items after the first. -/
def itemChars : List Json → List Char
  | [] => []
  | j :: js => ',' :: chars j ++ itemChars js

/-- The fields after the first. -/
def fieldChars : List (Option String × Json) → List Char
  | [] => []
  | (name, j) :: fields => ',' :: quoteChars name ++ ':' :: chars j ++ fieldChars fields

end

def render (j : Json) : String := String.ofList j.chars

end CallFill.Json
