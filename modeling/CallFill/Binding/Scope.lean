import CallFill.Symbol.Method
import CallFill.Symbol.Type
import CallFill.Tree.Role

/-! # Scopes

A scope declares types, methods, local variables and library references by name, and
answers what an expression of a document is from these declarations and from the local
declarations in the document itself. -/

namespace CallFill

structure Scope where
  /-- At most one type of each simple name, the latest. -/
  types : List TypeSymbol
  methods : List Method
  /-- Local variables with the names of their types, the latest first. -/
  locals : List (String × String)
  /-- The display names of the referenced libraries. -/
  references : List String
deriving DecidableEq, Repr

namespace Scope

def empty : Scope := ⟨[], [], [], []⟩

/-! ## Declarations -/

/-- Declares a type; it takes the place of an earlier one of the same simple name. -/
def declareType (s : Scope) (qualified : String) (kind : TypeKind) : Scope :=
  let t := TypeSymbol.ofQualified qualified kind
  { s with types := t :: s.types.filter (·.name != t.name) }

/-- Declares a method. Its declaring type may be given by its simple or its qualified name
and may be declared later. -/
def declareMethod (s : Scope) (m : Method) : Scope := { s with methods := s.methods ++ [m] }

def declareLocal (s : Scope) (name type : String) : Scope :=
  { s with locals := (name, type) :: s.locals }

def reference (s : Scope) (library : String) : Scope :=
  { s with references := s.references ++ [library] }

/-! ## Names -/

/-- The type of a simple or else a qualified name. -/
def type? (s : Scope) (name : String) : Option TypeSymbol :=
  (s.types.find? (·.name == name)).or (s.types.find? (·.display == name))

/-- The qualified name of the type that declares a method, as far as it is known. -/
def declaring (s : Scope) (m : Method) : String :=
  match s.type? m.declaring with
  | some t => t.display
  | none => m.declaring

/-- The methods of a name that a type declares. -/
def methodsOf (s : Scope) (receiver : TypeSymbol) (name : String) : List Method :=
  (s.methods.filter fun m => m.name == name && s.declaring m == receiver.display).map
    fun m => { m with declaring := s.declaring m }

/-! ## Expressions -/

/-- The type text in `Substitute.For<T>()`, which makes a stand-in for `T`. -/
def substituted? (call : Place) : Option String := do
  guard (call.isKind .invocation)
  let access ← call.memberAccess?
  let factory ← access.receiver?
  guard (factory.text = "Substitute")
  let member ← access.member?
  guard (member.isKind .genericName && access.memberName? == some "For")
  let arguments ← member.child? .typeArgumentList
  let first ← arguments.children.head?
  return first.text

/-- The first declaration of a local variable in the document around a place. -/
def declaration? (usage : Place) (name : String) : Option Place :=
  (Place.ofRoot usage.root).descendants.find? fun p =>
    p.isKind .localDeclaration && (p.childToken? .identifier).any (·.text == name)

/-- How many steps a type is followed through variables and parentheses. -/
def stepLimit : Nat := 8

/-- The type of an expression, following at most `steps - 1` parentheses and variables. -/
def typeWithin (s : Scope) : (steps : Nat) → Place → Option TypeSymbol
  | 0, _ => none
  | steps + 1, e =>
    match e.nodeKind? with
    | some .parenthesized =>
      match e.children.head? with
      | some inside => s.typeWithin steps inside
      | none => none
    | some .identifierName =>
      match s.locals.lookup e.text with
      | some type => s.type? type
      | none =>
        match declaration? e e.text with
        | none => none
        | some d =>
          match d.children with
          | type :: value :: _ =>
            if type.text = "var" then s.typeWithin steps value else s.type? type.text
          | _ => none
    | some .invocation =>
      match substituted? e with
      | some type => s.type? type
      | none => none
    | _ => none

def typeOf (s : Scope) (e : Place) : Option TypeSymbol := s.typeWithin (stepLimit + 1) e

/-! ## Calls -/

/-- The type of the receiver and the name of the member that a call calls. -/
def target? (s : Scope) (call : Place) : Option (TypeSymbol × String) := do
  guard (call.isKind .invocation)
  let access ← call.memberAccess?
  let receiver ← access.receiver?
  let type ← s.typeOf receiver
  let member ← access.memberName?
  return (type, member)

/-- The methods of the called name on the type of the receiver. -/
def memberGroup (s : Scope) (call : Place) : List Method :=
  match s.target? call with
  | some (type, member) => s.methodsOf type member
  | none => []

/-- The number of arguments of a call. -/
def arity (call : Place) : Nat :=
  match call.argumentList? with
  | some list => list.arguments.length
  | none => 0

def resolve (s : Scope) (call : Place) : Resolution :=
  match s.target? call with
  | some (type, member) => .ofGroup (s.methodsOf type member) (arity call)
  | none => .unresolved

/-- A call without a target has an empty group. -/
theorem resolve_eq (s : Scope) (call : Place) :
    s.resolve call = .ofGroup (s.memberGroup call) (arity call) := by
  rw [resolve, memberGroup]
  cases s.target? call <;> rfl

end Scope

end CallFill
