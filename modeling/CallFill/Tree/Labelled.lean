import CallFill.Tree.Edit

/-! # Labelled trees

Two nodes may be alike and still be two nodes. In a labelled tree every node has a label
from a counter: a node that is built anew gets a fresh one, a node that an edit leaves alone
keeps its own, so equal labels say that two trees share a node. -/

namespace CallFill

inductive Labelled where
  | token (t : Token)
  | node (label : Nat) (kind : NodeKind) (children : List Labelled)

namespace Labelled

/-- The label of a node. -/
def label? : Labelled → Option Nat
  | .token _ => none
  | .node l _ _ => some l

def children : Labelled → List Labelled
  | .token _ => []
  | .node _ _ cs => cs

mutual

/-- The tree without the labels. -/
def forget : Labelled → Tree
  | .token t => .token t
  | .node _ k cs => .node k (forgetAll cs)

def forgetAll : List Labelled → List Tree
  | [] => []
  | c :: cs => c.forget :: forgetAll cs

end

def isNode (t : Labelled) : Bool := t.label?.isSome

/-! ## Building, with the next free label as state -/

/-- A label that has not been given before. -/
def freshLabel : StateM Nat Nat := fun next => (next, next + 1)

def freshNode (k : NodeKind) (children : List Labelled) : StateM Nat Labelled := do
  return .node (← freshLabel) k children

mutual

/-- A tree all of whose nodes are new. -/
def fresh : Tree → StateM Nat Labelled
  | .token t => return .token t
  | .node k cs => do freshNode k (← freshAll cs)

def freshAll : List Tree → StateM Nat (List Labelled)
  | [] => return []
  | c :: cs => do
    let c ← fresh c
    return c :: (← freshAll cs)

end

/-- Puts `child` in the place of the child at `index`; the node is a new one. -/
def setChild : (t : Labelled) → (index : Nat) → (child : Labelled) → StateM Nat Labelled
  | .token t, _, _ => return .token t
  | .node _ k cs, index, child => freshNode k (cs.set index child)

mutual

/-- Appends trivia after the last token, if there is one; the nodes above it are new. -/
def appendTrailing? (trivia : String) : Labelled → StateM Nat (Option Labelled)
  | .token t => return some (.token (t.appendTrailing trivia))
  | .node _ k cs => do
    match ← appendTrailingAll? trivia cs with
    | some cs => return some (← freshNode k cs)
    | none => return none

def appendTrailingAll? (trivia : String) : List Labelled → StateM Nat (Option (List Labelled))
  | [] => return none
  | c :: cs => do
    match ← appendTrailingAll? trivia cs with
    | some cs => return some (c :: cs)
    | none =>
      match ← appendTrailing? trivia c with
      | some c => return some (c :: cs)
      | none => return none

end

/-- Appends trivia after the last token. A tree without tokens stays the very same. -/
def appendTrailing (trivia : String) (t : Labelled) : StateM Nat Labelled := do
  return (← appendTrailing? trivia t).getD t

/-! ## Paths -/

/-- The subtree at the end of a path. -/
def at? : List Nat → Labelled → Option Labelled
  | [], t => some t
  | i :: path, t =>
    match t.children[i]? with
    | some c => at? path c
    | none => none

/-- Puts another subtree at the end of a path; the nodes above it are new. -/
def replaceAt (new : Labelled) : List Nat → Labelled → StateM Nat Labelled
  | [], _ => return new
  | i :: path, t =>
    match t.children[i]? with
    | some c => do t.setChild i (← replaceAt new path c)
    | none => return t

end Labelled

end CallFill
