/-! # Methods as symbols

Methods with their parameters, and how many of a group of methods fit a call. -/

namespace CallFill

/-- A parameter with its type as source text. -/
structure Parameter where
  name : String
  type : String
deriving DecidableEq, Repr

/-- A method with the qualified name of the type that declares it. -/
structure Method where
  declaring : String
  name : String
  parameters : List Parameter
deriving DecidableEq, Repr

namespace Method

def parameterTypes (m : Method) : List String := m.parameters.map (·.type)

/-- The name and the parameter types as they stand in a declaration. -/
def signature (m : Method) : String :=
  m.name ++ "(" ++ ", ".intercalate m.parameterTypes ++ ")"

def display (m : Method) : String := m.declaring ++ "." ++ m.signature

end Method

/-- What a call binds to. -/
inductive Resolution where
  /-- Exactly one method fits. -/
  | resolved (m : Method)
  /-- Overload resolution failed; these methods were considered. -/
  | ambiguous (group : List Method)
  /-- There is no method of that name. -/
  | unresolved
deriving DecidableEq, Repr

namespace Resolution

/-- The methods that a failed overload resolution leaves behind. -/
def candidates : Resolution → List Method
  | .ambiguous group => group
  | _ => []

@[simp] theorem candidates_resolved (m : Method) : (resolved m).candidates = [] := rfl
@[simp] theorem candidates_ambiguous (g : List Method) : (ambiguous g).candidates = g := rfl
@[simp] theorem candidates_unresolved : unresolved.candidates = [] := rfl

/-- A call with `arity` arguments binds to the only member of its group that takes as many
parameters, if there is exactly one. -/
def ofGroup (group : List Method) (arity : Nat) : Resolution :=
  if group.isEmpty then .unresolved
  else
    match group.filter (·.parameters.length == arity) with
    | [only] => .resolved only
    | _ => .ambiguous group

end Resolution

end CallFill
