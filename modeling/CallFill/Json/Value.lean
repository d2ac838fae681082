/-! # JSON values

Objects keep their fields in order, repeated names included. A string or a name that spells
half of a surrogate pair is no text; it is kept as `none`. -/

namespace CallFill

inductive Json where
  | null
  | bool (b : Bool)
  /-- A number below `2 ^ 64`, written with digits only. -/
  | natural (n : Nat)
  /-- Any other number, as it is written. -/
  | number (text : String)
  | string (s : Option String)
  | array (items : List Json)
  | object (fields : List (Option String × Json))
deriving Inhabited, Repr

namespace Json

def text (s : String) : Json := .string (some s)

def texts (ss : List String) : Json := .array (ss.map text)

/-- An object with the given names. -/
def record (fields : List (String × Json)) : Json :=
  .object (fields.map fun (name, value) => (some name, value))

/-! ## Reading values -/

def text? : Json → Option String
  | .string s => s
  | _ => none

def natural? : Json → Option Nat
  | .natural n => some n
  | _ => none

def array? : Json → Option (List Json)
  | .array items => some items
  | _ => none

/-- A list of texts. -/
def texts? (j : Json) : Option (List String) := j.array?.bind (·.mapM text?)

/-- A name that stands for itself: the name alone, or an object that gives it no value. -/
def tag? : Json → Option String
  | .string s => s
  | .object [(name, .null)] => name
  | _ => none

/-- The value of a field, which must not be given twice. -/
def field? (fields : List (Option String × Json)) (name : String) : Option (Option Json) :=
  match fields.filter (·.1 == some name) with
  | [] => some none
  | [(_, value)] => some (some value)
  | _ => none

/-- The values of the named fields, as far as they are given: by name in an object, where
other names do not matter, or one after the other in an array, which must not be longer. -/
def fields? (names : List String) : Json → Option (List (Option Json))
  | .object fields =>
    if fields.all (·.1.isSome) then names.mapM (field? fields) else none
  | .array items =>
    if items.length ≤ names.length then
      some (items.map some ++ List.replicate (names.length - items.length) none)
    else none
  | _ => none

/-- A value that may be left out, but not be wrong. -/
def orElse? {α : Type} (missing : α) (read : Json → Option α) : Option Json → Option α
  | none => some missing
  | some j => read j

end Json

end CallFill
