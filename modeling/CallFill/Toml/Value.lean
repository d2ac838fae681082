/-! # TOML values

A table remembers how it came about, because that decides whether it may still grow. Dates
and fractional numbers are told apart from other values, and that is all. -/

namespace CallFill

/-- How a table came about. -/
inductive TableForm where
  /-- Under a header of its own, or as the whole document. -/
  | defined
  /-- On the way to a table with a header. -/
  | implied
  /-- On the way to a dotted key. -/
  | dotted
  /-- Between braces. -/
  | inline
deriving DecidableEq, Repr

inductive Toml where
  | string (s : String)
  | integer (n : Int)
  | float
  | boolean (b : Bool)
  | date
  | array (items : List Toml)
  | table (form : TableForm) (entries : List (String × Toml))
  /-- The tables under a header between double brackets, at least one. -/
  | tables (items : List (List (String × Toml)))
deriving Repr

namespace Toml

/-- The entries of a table, in the order in which they were given. -/
abbrev Entries := List (String × Toml)

/-- Puts a value in the place of an entry that is there. -/
def Entries.set (es : Entries) (key : String) (value : Toml) : Entries :=
  es.map fun e => if e.1 == key then (key, value) else e

/-- Changes the table at the end of a path. Tables that are missing on the way are made with
the form `made`; a table of a form that `grows` does not allow stops the way, and so does
anything that is no table. -/
def alter (made : TableForm) (grows : TableForm → Bool)
    (f : TableForm → Entries → Option (TableForm × Entries)) :
    List String → TableForm → Entries → Option (TableForm × Entries)
  | [], form, es => f form es
  | key :: path, form, es =>
    match es.lookup key with
    | none =>
      match alter made grows f path made [] with
      | some (inner, sub) => some (form, es ++ [(key, .table inner sub)])
      | none => none
    | some (.table inner sub) =>
      if grows inner then
        match alter made grows f path inner sub with
        | some (inner, sub) => some (form, Entries.set es key (.table inner sub))
        | none => none
      else none
    | some (.tables items) =>
      match items.getLast? with
      | none => none
      | some last =>
        match alter made grows f path .defined last with
        | some (_, sub) => some (form, Entries.set es key (.tables (items.dropLast ++ [sub])))
        | none => none
    | some _ => none

/-- Adds an entry under a key of one part or more. The table that gets it is the table at
hand, or one that dotted keys alone have made; the key must be new. -/
def insert (path : List String) (key : String) (value : Toml) (form : TableForm) (es : Entries) :
    Option (TableForm × Entries) :=
  alter .dotted (fun form => form == .implied || form == .dotted)
    (fun form es =>
      if !path.isEmpty && form != .dotted then none
      else if (es.lookup key).isSome then none
      else some (form, es ++ [(key, value)]))
    path form es

/-- Opens the table of a header: a new one, or one that was only implied so far. -/
def openTable (key : String) (form : TableForm) (es : Entries) : Option (TableForm × Entries) :=
  match es.lookup key with
  | none => some (form, es ++ [(key, .table .defined [])])
  | some (.table .implied sub) => some (form, Entries.set es key (.table .defined sub))
  | some _ => none

/-- Opens one more table of a header between double brackets. -/
def openNext (key : String) (form : TableForm) (es : Entries) : Option (TableForm × Entries) :=
  match es.lookup key with
  | none => some (form, es ++ [(key, .tables [[]])])
  | some (.tables items) => some (form, Entries.set es key (.tables (items ++ [[]])))
  | some _ => none

/-- Changes the table that a header names. -/
def under (path : List String) (f : TableForm → Entries → Option (TableForm × Entries))
    (es : Entries) : Option Entries :=
  (alter .implied (· != .inline) f path .defined es).map (·.2)

end Toml

end CallFill
