/-! # Types as symbols

A type has a qualified name, which is split into its simple name and the namespaces around it. -/

namespace CallFill

/-! ## Qualified names

A qualified name is split at its dots, except for those between brackets. Brackets need not
balance: a closing one with nothing to close is an ordinary character. -/

namespace Symbol

/-- The nesting depth after a character. -/
def depthAfter (depth : Nat) (c : Char) : Nat :=
  if c == '<' || c == '(' || c == '[' then depth + 1
  else if c == '>' || c == ')' || c == ']' then depth - 1
  else depth

/-- The first segment and the others, read from a given depth. -/
def segmentsFrom : (depth : Nat) → List Char → List Char × List (List Char)
  | _, [] => ([], [])
  | depth, c :: cs =>
    if c == '.' && depth == 0 then
      let (first, others) := segmentsFrom 0 cs
      ([], first :: others)
    else
      let (first, others) := segmentsFrom (depthAfter depth c) cs
      (c :: first, others)

/-- The segments between the dots at depth zero; there is always one. -/
def segments (qualified : String) : List String :=
  let (first, others) := segmentsFrom 0 qualified.toList
  (first :: others).map String.ofList

end Symbol

/-! ## Types -/

inductive TypeKind where
  | classType
  | structType
  | interfaceType
  | enumType
  | delegateType
  | arrayType
  | typeParameter
  /-- The type could not be bound. -/
  | error
deriving DecidableEq, Repr

namespace TypeKind

def name : TypeKind → String
  | .classType => "class"
  | .structType => "struct"
  | .interfaceType => "interface"
  | .enumType => "enum"
  | .delegateType => "delegate"
  | .arrayType => "array"
  | .typeParameter => "type_parameter"
  | .error => "error"

def all : List TypeKind :=
  [.classType, .structType, .interfaceType, .enumType, .delegateType, .arrayType, .typeParameter,
   .error]

def ofName? (n : String) : Option TypeKind := all.find? (·.name == n)

@[simp] theorem ofName?_name (k : TypeKind) : ofName? k.name = some k := by
  cases k <;> decide

end TypeKind

/-- A type: its simple name with type arguments, and the namespaces around it, outermost
first. -/
structure TypeSymbol where
  name : String
  kind : TypeKind
  namespaces : List String
deriving DecidableEq, Repr

namespace TypeSymbol

def ofQualified (qualified : String) (kind : TypeKind) : TypeSymbol :=
  let parts := Symbol.segments qualified
  ⟨parts.getLastD "", kind, parts.dropLast⟩

/-- The qualified name. -/
def display (t : TypeSymbol) : String := ".".intercalate (t.namespaces ++ [t.name])

def isInterface (t : TypeSymbol) : Bool := t.kind == .interfaceType

end TypeSymbol

end CallFill
