import CallFill.Text.Basic

/-! # TOML strings

Strings between quotes, with escapes, and strings between apostrophes, without. Both come in
a form of one line and in a form of several lines between triple quotes. -/

namespace CallFill.Toml

/-- A character that may stand in a line as it is. -/
def isPlain (c : Char) : Bool := c == '\t' || (' ' ≤ c && c != '\x7f')

def isSpace (c : Char) : Bool := c == ' ' || c == '\t'

def skipSpaces (cs : List Char) : List Char := cs.dropWhile isSpace

/-- What follows a line break, if there is one. -/
def newline? : List Char → Option (List Char)
  | '\n' :: cs => some cs
  | '\r' :: '\n' :: cs => some cs
  | _ => none

/-- Skips white space and line breaks. -/
def skipLines : List Char → List Char
  | [] => []
  | '\r' :: '\n' :: cs => skipLines cs
  | c :: cs => if isSpace c || c == '\n' then skipLines cs else c :: cs

/-! ## Escapes -/

/-- The number with the given hexadecimal digits. -/
def hexNumber? (cs : List Char) : Option Nat := do
  let ds ← cs.mapM Text.hexValue?
  return ds.foldl (fun n d => n * 16 + d) 0

/-- The character of a code point, which must not be half of a surrogate pair. -/
def scalar? (n : Nat) : Option Char := if n.isValidChar then some (Char.ofNat n) else none

/-- The character of `count` hexadecimal digits. -/
def codePoint? (count : Nat) (cs : List Char) : Option (Char × List Char) := do
  guard (count ≤ cs.length)
  let n ← hexNumber? (cs.take count)
  let c ← scalar? n
  return (c, cs.drop count)

/-- The character of an escape, after its backslash. -/
def escape? : List Char → Option (Char × List Char)
  | 'b' :: cs => some ('\x08', cs)
  | 't' :: cs => some ('\t', cs)
  | 'n' :: cs => some ('\n', cs)
  | 'f' :: cs => some ('\x0c', cs)
  | 'r' :: cs => some ('\r', cs)
  | '"' :: cs => some ('"', cs)
  | '\\' :: cs => some ('\\', cs)
  | 'u' :: cs => codePoint? 4 cs
  | 'U' :: cs => codePoint? 8 cs
  | _ => none

/-! ## Strings of one line -/

/-- The rest of a string between quotes. -/
def basic? : (fuel : Nat) → List Char → Option (List Char × List Char)
  | 0, _ => none
  | _ + 1, [] => none
  | fuel + 1, c :: cs =>
    if c == '"' then some ([], cs)
    else if c == '\\' then
      match escape? cs with
      | none => none
      | some (c, cs) => (basic? fuel cs).map fun (s, rest) => (c :: s, rest)
    else if isPlain c then (basic? fuel cs).map fun (s, rest) => (c :: s, rest)
    else none

/-- The rest of a string between apostrophes. -/
def literal? : List Char → Option (List Char × List Char)
  | [] => none
  | c :: cs =>
    if c == '\'' then some ([], cs)
    else if isPlain c then (literal? cs).map fun (s, rest) => (c :: s, rest)
    else none

/-! ## Strings of several lines -/

/-- The end of a string between triple marks: up to two more of them belong to the string. -/
def closing? (mark : Char) (cs : List Char) : Option (List Char × List Char) :=
  let run := (cs.takeWhile (· == mark)).length
  if run < 3 then none
  else
    let extra := min (run - 3) 2
    some (List.replicate extra mark, cs.drop (extra + 3))

/-- The rest of a string between triple quotes. A backslash at the end of a line takes the
white space and the line breaks after it away. -/
def longBasic? : (fuel : Nat) → List Char → Option (List Char × List Char)
  | 0, _ => none
  | _ + 1, [] => none
  | fuel + 1, c :: cs =>
    match closing? '"' (c :: cs) with
    | some found => some found
    | none =>
      if c == '\\' then
        match newline? (skipSpaces cs) with
        | some cs => longBasic? fuel (skipLines cs)
        | none =>
          match escape? cs with
          | none => none
          | some (c, cs) => (longBasic? fuel cs).map fun (s, rest) => (c :: s, rest)
      else
        match newline? (c :: cs) with
        | some cs => (longBasic? fuel cs).map fun (s, rest) => ('\n' :: s, rest)
        | none =>
          if isPlain c then (longBasic? fuel cs).map fun (s, rest) => (c :: s, rest)
          else none

/-- The rest of a string between triple apostrophes. -/
def longLiteral? : (fuel : Nat) → List Char → Option (List Char × List Char)
  | 0, _ => none
  | _ + 1, [] => none
  | fuel + 1, c :: cs =>
    match closing? '\'' (c :: cs) with
    | some found => some found
    | none =>
      match newline? (c :: cs) with
      | some cs => (longLiteral? fuel cs).map fun (s, rest) => ('\n' :: s, rest)
      | none =>
        if isPlain c then (longLiteral? fuel cs).map fun (s, rest) => (c :: s, rest)
        else none

/-- A string of any form. A line break right after the opening triple mark is left out. -/
def string? (cs : List Char) : Option (String × List Char) :=
  let fuel := cs.length + 1
  let text := fun (found : Option (List Char × List Char)) =>
    found.map fun (s, rest) => (String.ofList s, rest)
  match cs with
  | '"' :: '"' :: '"' :: cs => text (longBasic? fuel ((newline? cs).getD cs))
  | '"' :: cs => text (basic? fuel cs)
  | '\'' :: '\'' :: '\'' :: cs => text (longLiteral? fuel ((newline? cs).getD cs))
  | '\'' :: cs => text (literal? cs)
  | _ => none

end CallFill.Toml
