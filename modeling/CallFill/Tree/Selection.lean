import CallFill.Tree.Place

/-! # The node under a selection

The search goes down into the first child whose non-empty span contains the selection, for
as long as there is one, and then back up over the ancestors with the same span. -/

namespace CallFill.Place

open Text

mutual

/-- The place reached going down from a subtree. -/
def deepestFrom (s : Span) (above : List Frame) : Tree → Place
  | .token t => ⟨.token t, above⟩
  | .node k cs => (deepestAmong s k above [] cs).getD ⟨.node k cs, above⟩

/-- The place reached through the first of the children `cs` that holds the selection. -/
def deepestAmong (s : Span) (k : NodeKind) (above : List Frame) (before : List Tree) :
    List Tree → Option Place
  | [] => none
  | c :: cs =>
    let here : Place := ⟨c, ⟨k, before, cs⟩ :: above⟩
    if c.isNode && here.span.contains s && !here.span.isEmpty then
      some (deepestFrom s (⟨k, before, cs⟩ :: above) c)
    else deepestAmong s k above (c :: before) cs

end

/-- The highest place with the same span as the focus, every step between included. -/
def outermostFrom (t : Tree) : List Frame → Place
  | [] => ⟨t, []⟩
  | f :: fs =>
    if span ⟨f.fill t, fs⟩ = span ⟨t, f :: fs⟩ then outermostFrom (f.fill t) fs
    else ⟨t, f :: fs⟩

/-- The outermost node with the span of the deepest node that contains the selection; none
when the selection leaves the full span of the place. -/
def find? (p : Place) (s : Span) : Option Place :=
  if p.fullSpan.contains s then
    let deepest := deepestFrom s p.above p.focus
    some (outermostFrom deepest.focus deepest.above)
  else none

end CallFill.Place
