import CallFill.Toml.Numbers
import CallFill.Toml.Strings

/-! # Reading TOML

A document is a run of lines: blank lines, comments, headers and entries. Values nest to a
limited depth, and keys have a limited number of parts. -/

namespace CallFill.Toml

/-! ## Lines -/

/-- What follows a comment, if there is one. -/
def skipComment : List Char → List Char
  | '#' :: cs => cs.dropWhile isPlain
  | cs => cs

/-- What follows the end of a line: a line break, or nothing at the end of the text. -/
def lineEnd? (cs : List Char) : Option (List Char) :=
  if cs.isEmpty then some [] else newline? cs

/-- What follows the rest of a line, which may hold a comment. -/
def restOfLine? (cs : List Char) : Option (List Char) := lineEnd? (skipComment (skipSpaces cs))

/-- Skips white space, comments and line breaks. -/
def skipGaps : (fuel : Nat) → List Char → List Char
  | 0, cs => cs
  | fuel + 1, cs =>
    let rest := skipSpaces cs
    match rest with
    | '#' :: _ =>
      match newline? (skipComment rest) with
      | some cs => skipGaps fuel cs
      | none => rest
    | _ =>
      match newline? rest with
      | some cs => skipGaps fuel cs
      | none => rest

/-! ## Keys -/

def isKeyChar (c : Char) : Bool :=
  c.isAlphanum || c == '-' || c == '_'

/-- One part of a key. -/
def keyPart? (cs : List Char) : Option (String × List Char) :=
  match cs with
  | '"' :: cs => (basic? (cs.length + 1) cs).map fun (s, rest) => (String.ofList s, rest)
  | '\'' :: cs => (literal? cs).map fun (s, rest) => (String.ofList s, rest)
  | _ =>
    let name := cs.takeWhile isKeyChar
    if name.isEmpty then none else some (String.ofList name, cs.drop name.length)

/-- The parts of a key, with dots between them. -/
def keyParts? : (fuel : Nat) → List Char → Option (List String × List Char)
  | 0, _ => none
  | fuel + 1, cs =>
    match keyPart? (skipSpaces cs) with
    | none => none
    | some (part, cs) =>
      match skipSpaces cs with
      | '.' :: cs => (keyParts? fuel cs).map fun (parts, rest) => (part :: parts, rest)
      | cs => some ([part], cs)

/-- How deep values may nest and how many parts a key may have, each less than this. -/
def nestingLimit : Nat := 80

/-- A key: the parts on the way, and the last one. -/
def key? (cs : List Char) : Option ((List String × String) × List Char) := do
  let (parts, rest) ← keyParts? (cs.length + 1) cs
  guard (parts.length < nestingLimit)
  let last ← parts.getLast?
  return ((parts.dropLast, last), rest)

/-! ## Values -/

/-- What reads a value off the front of a text. -/
abbrev ValueReader := List Char → Option (Toml × List Char)

/-- The items of an array, up to its closing bracket; a comma may follow the last. -/
def items? (value : ValueReader) : (fuel : Nat) → List Char → Option (List Toml × List Char)
  | 0, _ => none
  | fuel + 1, cs =>
    match skipGaps fuel cs with
    | ']' :: cs => some ([], cs)
    | cs =>
      match value cs with
      | none => none
      | some (v, cs) =>
        match skipGaps fuel cs with
        | ',' :: cs => (items? value fuel cs).map fun (vs, rest) => (v :: vs, rest)
        | ']' :: cs => some ([v], cs)
        | _ => none

/-- A key, an equals sign and a value. -/
def entry? (value : ValueReader) (cs : List Char) :
    Option ((List String × String) × Toml × List Char) := do
  let (key, cs) ← key? cs
  let cs ← char? '=' cs
  let (v, cs) ← value (skipSpaces cs)
  return (key, v, cs)

/-- The entries between braces, at least one, added to those already there. -/
def inlineEntries? (value : ValueReader) :
    (fuel : Nat) → Entries → List Char → Option (Entries × List Char)
  | 0, _, _ => none
  | fuel + 1, es, cs =>
    match entry? value cs with
    | none => none
    | some ((path, key), v, cs) =>
      match insert path key v .inline es with
      | none => none
      | some (_, es) =>
        match skipSpaces cs with
        | ',' :: cs => inlineEntries? value fuel es cs
        | '\x7d' :: cs => some (es, cs)
        | _ => none

/-- A number or a date, from a sign or a digit on. -/
def numberOrDate? (cs : List Char) : Option (Toml × List Char) :=
  ((date? cs).or (float? cs)).or (integer? cs)

/-- A value with `levels` levels of nesting left. -/
def value? : (levels : Nat) → ValueReader
  | 0, _ => none
  | levels + 1, cs =>
    match cs with
    | [] => none
    | 't' :: 'r' :: 'u' :: 'e' :: cs => some (.boolean true, cs)
    | 'f' :: 'a' :: 'l' :: 's' :: 'e' :: cs => some (.boolean false, cs)
    | '[' :: rest =>
      if levels = 0 then none
      else (items? (value? levels) (rest.length + 1) rest).map fun (vs, cs) => (.array vs, cs)
    | '\x7b' :: rest =>
      if levels = 0 then none
      else
        match skipSpaces rest with
        | '\x7d' :: cs => some (.table .inline [], cs)
        | _ =>
          (inlineEntries? (value? levels) (rest.length + 1) [] rest).map
            fun (es, cs) => (.table .inline es, cs)
    | c :: _ =>
      if c == '"' || c == '\'' then (string? cs).map fun (s, cs) => (.string s, cs)
      else if c == '+' || c == '-' || c.isDigit || c == 'i' || c == 'n' then numberOrDate? cs
      else none

/-! ## Documents -/

/-- The entries so far, and the path of the header that the next entry comes under. -/
structure State where
  root : Entries
  header : List String

def State.insert (s : State) (path : List String) (key : String) (v : Toml) : Option State := do
  let root ← under s.header (Toml.insert path key v) s.root
  return { s with root := root }

def State.openTable (s : State) (path : List String) (key : String) : Option State := do
  let root ← under path (Toml.openTable key) s.root
  return ⟨root, path ++ [key]⟩

def State.openNext (s : State) (path : List String) (key : String) : Option State := do
  let root ← under path (Toml.openNext key) s.root
  return ⟨root, path ++ [key]⟩

/-- One comment, header, blank line or entry. -/
def line? (s : State) (cs : List Char) : Option (State × List Char) :=
  match cs with
  | '#' :: _ => do
    let cs ← lineEnd? (skipComment cs)
    return (s, cs)
  | '[' :: '[' :: cs => do
    let ((path, key), cs) ← key? cs
    let cs ← (char? ']' cs).bind (char? ']')
    let s ← s.openNext path key
    return (s, ← restOfLine? cs)
  | '[' :: cs => do
    let ((path, key), cs) ← key? cs
    let cs ← char? ']' cs
    let s ← s.openTable path key
    return (s, ← restOfLine? cs)
  | _ =>
    match newline? cs with
    | some cs => some (s, cs)
    | none => do
      let ((path, key), v, cs) ← entry? (value? nestingLimit) cs
      let cs ← restOfLine? cs
      return (← s.insert path key v, cs)

def lines? : (fuel : Nat) → State → List Char → Option State
  | 0, _, _ => none
  | fuel + 1, s, cs =>
    match skipSpaces cs with
    | [] => some s
    | cs =>
      match line? s cs with
      | some (s, cs) => lines? fuel s cs
      | none => none

/-- A byte order mark at the front is skipped. -/
def skipMark : List Char → List Char
  | c :: cs => if c == Char.ofNat 0xFEFF then cs else c :: cs
  | [] => []

/-- The entries of a whole document. -/
def read? (text : String) : Option Entries :=
  (lines? (text.toList.length + 1) ⟨[], []⟩ (skipMark text.toList)).map (·.root)

end CallFill.Toml
