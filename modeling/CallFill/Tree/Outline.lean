import CallFill.Tree.Place

/-! # Outlines

An outline lists a tree in pre-order with the depth and the offsets of every node and
token. -/

namespace CallFill

open Text

inductive Row where
  | node (depth : Nat) (kind : NodeKind) (full inner : Span)
  | token (depth : Nat) (start : Nat) (token : Token)
deriving DecidableEq, Repr

namespace Tree

mutual

/-- The rows of a tree that begins at `offset`. -/
def outlineFrom (depth offset : Nat) : Tree → List Row
  | .token t => [.token depth (TokenPlace.span ⟨t, offset⟩).start t]
  | .node k cs =>
    let t := Tree.node k cs
    .node depth k ⟨offset, offset + t.width⟩
      ⟨offset + t.leadingWidth, offset + t.width - t.trailingWidth⟩ ::
      outlineAll (depth + 1) offset cs

def outlineAll (depth offset : Nat) : List Tree → List Row
  | [] => []
  | c :: cs => outlineFrom depth offset c ++ outlineAll depth (offset + c.width) cs

end

def outline (t : Tree) : List Row := t.outlineFrom 0 0

end Tree

end CallFill
