import CallFill.Tree.Basic

/-! # Building trees

Nodes and tokens of a given kind, and the pieces of generated source. Generated source has
no trivia but one blank after each comma of a list. -/

namespace CallFill

/-- A kind of the wrong family. -/
inductive KindError where
  | notToken (k : NodeKind)
  | notNode (k : TokenKind)
deriving DecidableEq, Repr

def KindError.message : KindError → String
  | .notToken k => k.name ++ " is not a token kind"
  | .notNode k => k.name ++ " is a token kind"

/-- A token of a kind, which must be a kind of token. -/
def Token.ofKind (k : Kind) (leading text trailing : String) : Except KindError Token :=
  match k with
  | .token k => .ok ⟨k, leading, text, trailing⟩
  | .node k => .error (.notToken k)

namespace Tree

/-- A node of a kind, which must be a kind of node. -/
def ofKind (k : Kind) (children : List Tree) : Except KindError Tree :=
  match k with
  | .node k => .ok (.node k children)
  | .token k => .error (.notNode k)

/-- A token without trivia. -/
def leaf (k : TokenKind) (text : String) : Tree := .token (.bare k text)

/-- A comma and a blank. -/
def separator : Tree := .token ⟨.comma, "", ",", " "⟩

/-- `a, b, c` -/
def separated : List Tree → List Tree
  | [] => []
  | [t] => [t]
  | t :: ts => t :: separator :: separated ts

/-- `name` -/
def identifierName (name : String) : Tree := .node .identifierName [leaf .identifier name]

/-- `<A, B>` -/
def typeArguments (types : List Tree) : Tree :=
  .node .typeArgumentList (leaf .lessThan "<" :: separated types ++ [leaf .greaterThan ">"])

/-- `name<A, B>` -/
def genericName (name : String) (arguments : Tree) : Tree :=
  .node .genericName [leaf .identifier name, arguments]

/-- `target.name` -/
def memberAccess (target name : Tree) : Tree := .node .memberAccess [target, leaf .dot ".", name]

def argument (expression : Tree) : Tree := .node .argument [expression]

/-- `(a, b)` -/
def argumentList (arguments : List Tree) : Tree :=
  .node .argumentList (leaf .openParen "(" :: separated arguments ++ [leaf .closeParen ")"])

/-- `callee(a, b)` -/
def invocation (callee arguments : Tree) : Tree := .node .invocation [callee, arguments]

end Tree

end CallFill
