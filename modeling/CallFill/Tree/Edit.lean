import CallFill.Tree.Basic

/-! # Edits of a tree

One child may be replaced, and trivia may be appended after the last token. Both rebuild
only the nodes above the change. -/

namespace CallFill.Tree

/-- An index past the children of a node. -/
structure OutOfBounds where
  len : Nat
  index : Nat
deriving DecidableEq, Repr

def OutOfBounds.message (e : OutOfBounds) : String :=
  "index out of bounds: the len is " ++ toString e.len ++ " but the index is " ++ toString e.index

/-- Puts `child` in the place of the child at `index`; past the end nothing changes. -/
def setChild : (t : Tree) → (index : Nat) → (child : Tree) → Tree
  | .token t, _, _ => .token t
  | .node k cs, index, child => .node k (cs.set index child)

/-- Puts `child` in the place of the child at `index`, which must be there. -/
def replaceChild (t : Tree) (index : Nat) (child : Tree) : Except OutOfBounds Tree :=
  if index < t.children.length then .ok (t.setChild index child)
  else .error ⟨t.children.length, index⟩

mutual

/-- Appends trivia after the last token, if there is one. -/
def appendTrailing? (trivia : String) : Tree → Option Tree
  | .token t => some (.token (t.appendTrailing trivia))
  | .node k cs =>
    match appendTrailingAll? trivia cs with
    | some cs => some (.node k cs)
    | none => none

def appendTrailingAll? (trivia : String) : List Tree → Option (List Tree)
  | [] => none
  | c :: cs =>
    match appendTrailingAll? trivia cs with
    | some cs => some (c :: cs)
    | none =>
      match appendTrailing? trivia c with
      | some c => some (c :: cs)
      | none => none

end

/-- Appends trivia after the last token. A tree without tokens stays as it is. -/
def appendTrailing (trivia : String) (t : Tree) : Tree := (t.appendTrailing? trivia).getD t

end CallFill.Tree
