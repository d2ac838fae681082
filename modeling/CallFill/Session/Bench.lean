import CallFill.Grammar.Source
import CallFill.Tree.Build
import CallFill.Tree.Labelled

/-! # A bench for building trees

Trees are built step by step from tokens, from generated source, from source texts and from
trees built before, which a step names by the number of the step that made them. -/

namespace CallFill

/-- Why a step made nothing. -/
inductive BenchError where
  /-- The step refers to something that was not made. -/
  | noElement
  /-- The step needs a node and was given a token. -/
  | notNode
  | kind (e : KindError)
  | bounds (e : Tree.OutOfBounds)
  | unreadable (e : Grammar.SyntaxError)
deriving DecidableEq, Repr

inductive BuildStep where
  | token (kind : Kind) (leading text trailing : String)
  | node (kind : Kind) (children : List Nat)
  | identifierName (name : String)
  | typeArguments (items : List Nat)
  | genericName (name : String) (arguments : Nat)
  | memberAccess (target name : Nat)
  | argument (expression : Nat)
  | argumentList (items : List Nat)
  | invocation (callee arguments : Nat)
  | expression (source : String)
  | document (source : String)
  | namedType (name : String)
  | replaceChild (parent index child : Nat)
  | append (element : Nat) (trivia : String)
  | child (parent index : Nat)
deriving Repr

/-- What the steps so far have made, and the next free label. -/
structure Bench where
  elements : List (Option Labelled)
  next : Nat

namespace Bench

def empty : Bench := ⟨[], 0⟩

/-- What a step has made. -/
def element (b : Bench) (i : Nat) : Except BenchError Labelled :=
  match b.elements[i]? with
  | some (some t) => .ok t
  | _ => .error .noElement

/-- The node that a step has made. -/
def nodeElement (b : Bench) (i : Nat) : Except BenchError Labelled := do
  let t ← b.element i
  if t.isNode then return t else throw .notNode

/-- A new node around nodes and tokens that are there already. -/
def around (k : NodeKind) (cs : List Labelled) : StateM Nat Labelled := Labelled.freshNode k cs

def leaf (k : TokenKind) (text : String) : Labelled := .token (.bare k text)

/-- The items of a list with a comma and a blank between them. -/
def separated : List Labelled → List Labelled
  | [] => []
  | [t] => [t]
  | t :: ts => t :: .token ⟨.comma, "", ",", " "⟩ :: separated ts

abbrev Making := ExceptT BenchError (StateM Nat)

def lift {α : Type} (x : Except BenchError α) : Making α := ExceptT.mk (return x)

/-- What a step makes of the elements on the bench; a name that is no type makes nothing. -/
def make (b : Bench) : BuildStep → Making (Option Labelled)
  | .token k leading text trailing => do
    let t ← lift ((Token.ofKind k leading text trailing).mapError .kind)
    return some (.token t)
  | .node k items => do
    let cs ← lift (items.mapM b.element)
    match k with
    | .node k => return some (← around k cs)
    | .token k => throw (.kind (.notNode k))
  | .identifierName name => do return some (← around .identifierName [leaf .identifier name])
  | .typeArguments items => do
    let cs ← lift (items.mapM b.nodeElement)
    return some (← around .typeArgumentList
      (leaf .lessThan "<" :: separated cs ++ [leaf .greaterThan ">"]))
  | .genericName name i => do
    return some (← around .genericName [leaf .identifier name, ← lift (b.nodeElement i)])
  | .memberAccess i j => do
    return some (← around .memberAccess
      [← lift (b.nodeElement i), leaf .dot ".", ← lift (b.nodeElement j)])
  | .argument i => do return some (← around .argument [← lift (b.nodeElement i)])
  | .argumentList items => do
    let cs ← lift (items.mapM b.nodeElement)
    return some (← around .argumentList
      (leaf .openParen "(" :: separated cs ++ [leaf .closeParen ")"]))
  | .invocation i j => do
    return some (← around .invocation [← lift (b.nodeElement i), ← lift (b.nodeElement j)])
  | .expression source => do
    let t ← lift ((Grammar.expression source).mapError .unreadable)
    return some (← Labelled.fresh t)
  | .document source => do
    let t ← lift ((Grammar.document source).mapError .unreadable)
    return some (← Labelled.fresh t)
  | .namedType name => do
    match Grammar.namedType? name with
    | some t => return some (← Labelled.fresh t)
    | none => return none
  | .replaceChild i index j => do
    let parent ← lift (b.nodeElement i)
    let child ← lift (b.element j)
    if index < parent.children.length then return some (← parent.setChild index child)
    else throw (.bounds ⟨parent.children.length, index⟩)
  | .append i trivia => do
    let t ← lift (b.element i)
    return some (← t.appendTrailing trivia)
  | .child i index => do
    let parent ← lift (b.nodeElement i)
    match parent.children[index]? with
    | some c => return some c
    | none => throw .noElement

/-- Takes a step and puts what it makes on the bench. -/
def build (b : Bench) (step : BuildStep) : Except BenchError (Option Labelled) × Bench :=
  let (made, next) := (b.make step).run b.next
  (made, ⟨b.elements ++ [made.toOption.join], next⟩)

/-- Leaves a number without an element. -/
def skip (b : Bench) : Bench := { b with elements := b.elements ++ [none] }

end Bench

end CallFill
