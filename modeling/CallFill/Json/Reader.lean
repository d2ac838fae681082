import CallFill.Json.Value
import CallFill.Text.Basic

/-! # Reading JSON

The reader takes one value off the front of a text. Repetitions and nesting carry fuel, of
which a text needs no more than it has characters. -/

namespace CallFill.Json

def isSpace (c : Char) : Bool := c == ' ' || c == '\n' || c == '\t' || c == '\r'

def skip (cs : List Char) : List Char := cs.dropWhile isSpace

/-! ## Strings -/

/-- The number with four hexadecimal digits. -/
def hex4? (a b c d : Char) : Option Nat :=
  match Text.hexValue? a, Text.hexValue? b, Text.hexValue? c, Text.hexValue? d with
  | some a, some b, some c, some d => some (((a * 16 + b) * 16 + c) * 16 + d)
  | _, _, _, _ => none

/-- What a one-letter escape stands for. -/
def shortEscape? (c : Char) : Option Char :=
  if c = '"' ∨ c = '\\' ∨ c = '/' then some c
  else if c = 'b' then some '\x08'
  else if c = 'f' then some '\x0c'
  else if c = 'n' then some '\n'
  else if c = 'r' then some '\r'
  else if c = 't' then some '\t'
  else none

/-- A piece of a string: a character, or half of a surrogate pair. -/
inductive Piece where
  | char (c : Char)
  | half (n : Nat)
deriving DecidableEq, Repr

def Piece.ofUnit (n : Nat) : Piece :=
  if 0xD800 ≤ n ∧ n < 0xE000 then .half n else .char (Char.ofNat n)

/-- The pieces of a string up to its closing quote. -/
def pieces? : List Char → Option (List Piece × List Char)
  | [] => none
  | '"' :: cs => some ([], cs)
  | '\\' :: 'u' :: a :: b :: c :: d :: cs =>
    match hex4? a b c d, pieces? cs with
    | some n, some (ps, rest) => some (.ofUnit n :: ps, rest)
    | _, _ => none
  | '\\' :: c :: cs =>
    match shortEscape? c, pieces? cs with
    | some c, some (ps, rest) => some (.char c :: ps, rest)
    | _, _ => none
  | c :: cs =>
    if c.toNat < 0x20 ∨ c = '\\' then none
    else
      match pieces? cs with
      | some (ps, rest) => some (.char c :: ps, rest)
      | none => none

/-- Joins the two halves of each pair; none when a half stands alone. -/
def join? : List Piece → Option (List Char)
  | [] => some []
  | .char c :: ps => (join? ps).map (c :: ·)
  | .half hi :: .half lo :: ps =>
    if hi < 0xDC00 ∧ 0xDC00 ≤ lo then
      (join? ps).map (Char.ofNat (0x10000 + (hi - 0xD800) * 0x400 + (lo - 0xDC00)) :: ·)
    else none
  | .half _ :: _ => none

/-- A string after its opening quote. -/
def string? (cs : List Char) : Option (Option String × List Char) :=
  match pieces? cs with
  | some (ps, rest) => some ((join? ps).map String.ofList, rest)
  | none => none

/-! ## Numbers -/

/-- The digits before the point; a zero stands alone. -/
def integer? : List Char → Option (List Char × List Char)
  | [] => none
  | c :: cs =>
    if c = '0' then (if cs.head?.any Char.isDigit then none else some (['0'], cs))
    else if c.isDigit then some (c :: cs.takeWhile Char.isDigit, cs.dropWhile Char.isDigit)
    else none

/-- One digit or more. -/
def digits? (cs : List Char) : Option (List Char × List Char) :=
  if cs.head?.any Char.isDigit then some (cs.takeWhile Char.isDigit, cs.dropWhile Char.isDigit)
  else none

def fraction? : List Char → Option (List Char × List Char)
  | '.' :: cs =>
    match digits? cs with
    | some (ds, rest) => some ('.' :: ds, rest)
    | none => none
  | cs => some ([], cs)

def exponent? : List Char → Option (List Char × List Char)
  | [] => some ([], [])
  | e :: cs =>
    if e = 'e' ∨ e = 'E' then
      let sign := cs.takeWhile fun c => c == '+' || c == '-'
      if sign.length ≤ 1 then
        match digits? (cs.drop sign.length) with
        | some (ds, rest) => some (e :: sign ++ ds, rest)
        | none => none
      else none
    else some ([], e :: cs)

def natOfDigits (ds : List Char) : Nat :=
  ds.foldl (fun n c => n * 10 + (c.toNat - '0'.toNat)) 0

/-- A number, from its sign or first digit on. -/
def number? (cs : List Char) : Option (Json × List Char) := do
  let sign := if cs.head? = some '-' then ['-'] else []
  let (int, cs) ← integer? (cs.drop sign.length)
  let (frac, cs) ← fraction? cs
  let (exp, cs) ← exponent? cs
  if sign.isEmpty && frac.isEmpty && exp.isEmpty && natOfDigits int < UInt64.size then
    return (.natural (natOfDigits int), cs)
  else return (.number (String.ofList (sign ++ int ++ frac ++ exp)), cs)

/-! ## Values -/

/-- Items up to the closing bracket, at least one. -/
def items? (item : List Char → Option (Json × List Char)) :
    (fuel : Nat) → List Char → Option (List Json × List Char)
  | 0, _ => none
  | fuel + 1, cs =>
    match item cs with
    | none => none
    | some (j, cs) =>
      match skip cs with
      | ']' :: cs => some ([j], cs)
      | ',' :: cs =>
        match items? item fuel cs with
        | some (js, cs) => some (j :: js, cs)
        | none => none
      | _ => none

/-- Fields up to the closing brace, at least one. -/
def fieldList? (item : List Char → Option (Json × List Char)) :
    (fuel : Nat) → List Char → Option (List (Option String × Json) × List Char)
  | 0, _ => none
  | fuel + 1, cs =>
    match skip cs with
    | '"' :: cs =>
      match string? cs with
      | none => none
      | some (name, cs) =>
        match skip cs with
        | ':' :: cs =>
          match item cs with
          | none => none
          | some (j, cs) =>
            match skip cs with
            | '\x7d' :: cs => some ([(name, j)], cs)
            | ',' :: cs =>
              match fieldList? item fuel cs with
              | some (fields, cs) => some ((name, j) :: fields, cs)
              | none => none
            | _ => none
        | _ => none
    | _ => none

/-- One value and what follows it. -/
def value? : (fuel : Nat) → List Char → Option (Json × List Char)
  | 0, _ => none
  | fuel + 1, cs =>
    match skip cs with
    | 'n' :: 'u' :: 'l' :: 'l' :: cs => some (.null, cs)
    | 't' :: 'r' :: 'u' :: 'e' :: cs => some (.bool true, cs)
    | 'f' :: 'a' :: 'l' :: 's' :: 'e' :: cs => some (.bool false, cs)
    | '"' :: cs =>
      match string? cs with
      | some (s, cs) => some (.string s, cs)
      | none => none
    | '[' :: cs =>
      match skip cs with
      | ']' :: cs => some (.array [], cs)
      | _ =>
        match items? (value? fuel) fuel cs with
        | some (js, cs) => some (.array js, cs)
        | none => none
    | '\x7b' :: cs =>
      match skip cs with
      | '\x7d' :: cs => some (.object [], cs)
      | _ =>
        match fieldList? (value? fuel) fuel cs with
        | some (fields, cs) => some (.object fields, cs)
        | none => none
    | cs => number? cs

/-- The value that a whole text stands for. -/
def read? (text : String) : Option Json :=
  match value? (text.toList.length + 1) text.toList with
  | some (j, rest) => if (skip rest).isEmpty then some j else none
  | none => none

end CallFill.Json
