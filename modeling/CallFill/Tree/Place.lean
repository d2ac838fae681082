import CallFill.Text.Span
import CallFill.Tree.Edit

/-! # Places in a tree

A place is a subtree together with what surrounds it: one frame per ancestor, the nearest
first, each holding the siblings on either side. Every place is the place of its focus in
one whole tree, `Place.root`, so offsets, parents and edits need no side conditions. -/

namespace CallFill

open Text

/-- An ancestor with one child missing. `before` lists the left siblings, nearest first. -/
structure Frame where
  kind : NodeKind
  before : List Tree
  after : List Tree
deriving DecidableEq

namespace Frame

/-- The ancestor with `t` in the gap. -/
def fill (f : Frame) (t : Tree) : Tree := .node f.kind (f.before.reverse ++ t :: f.after)

/-- The index of the gap among the children. -/
def index (f : Frame) : Nat := f.before.length

/-- The number of bytes to the left of the gap. -/
def offset (f : Frame) : Nat := Tree.widthAll f.before

/-- The number of bytes to the left of all gaps. -/
def offsetAll : List Frame → Nat
  | [] => 0
  | f :: fs => f.offset + offsetAll fs

@[simp] theorem offsetAll_cons (f : Frame) (fs : List Frame) :
    offsetAll (f :: fs) = f.offset + offsetAll fs := rfl

end Frame

structure Place where
  focus : Tree
  above : List Frame
deriving DecidableEq

namespace Place

def ofRoot (t : Tree) : Place := ⟨t, []⟩

/-- The whole tree with `t` at the bottom of the frames. -/
def fillAll (t : Tree) : List Frame → Tree
  | [] => t
  | f :: fs => fillAll (f.fill t) fs

/-- The whole tree around a place. -/
def root (p : Place) : Tree := fillAll p.focus p.above

/-- The whole tree with another subtree at this place. -/
def replace (p : Place) (t : Tree) : Tree := fillAll t p.above

@[simp] theorem fillAll_nil (t : Tree) : fillAll t [] = t := rfl
@[simp] theorem fillAll_cons (t : Tree) (f : Frame) (fs : List Frame) :
    fillAll t (f :: fs) = fillAll (f.fill t) fs := rfl

def nodeKind? (p : Place) : Option NodeKind := p.focus.nodeKind?

def isKind (p : Place) (k : NodeKind) : Bool := p.nodeKind? == some k

def text (p : Place) : String := p.focus.text

/-! ## Up -/

def parent? : Place → Option Place
  | ⟨_, []⟩ => none
  | ⟨t, f :: fs⟩ => some ⟨f.fill t, fs⟩

/-- The index among the children of the parent, tokens included; zero at the root. -/
def index (p : Place) : Nat :=
  match p.above with
  | [] => 0
  | f :: _ => f.index

/-- The indices on the way down from the root. -/
def path (p : Place) : List Nat := (p.above.map Frame.index).reverse

def ancestorsFrom (t : Tree) : List Frame → List Place
  | [] => [⟨t, []⟩]
  | f :: fs => ⟨t, f :: fs⟩ :: ancestorsFrom (f.fill t) fs

/-- The place and those above it, the root last. -/
def ancestors (p : Place) : List Place := ancestorsFrom p.focus p.above

theorem root_of_mem_ancestors {p q : Place} (h : q ∈ p.ancestors) : q.root = p.root := by
  obtain ⟨t, fs⟩ := p
  simp only [ancestors, root] at h ⊢
  induction fs generalizing t with
  | nil => simp [ancestorsFrom] at h; simp [h]
  | cons f fs ih =>
    simp only [ancestorsFrom, List.mem_cons] at h
    rcases h with rfl | h
    · rfl
    · simpa using ih (f.fill t) h

/-! ## Down -/

/-- The places of the nodes among `cs`, the right part of the children of a node. -/
def childrenFrom (k : NodeKind) (above : List Frame) (before : List Tree) :
    List Tree → List Place
  | [] => []
  | c :: cs =>
    let rest := childrenFrom k above (c :: before) cs
    if c.isNode then ⟨c, ⟨k, before, cs⟩ :: above⟩ :: rest else rest

/-- The places of the child nodes, tokens skipped. -/
def children (p : Place) : List Place :=
  match p.focus with
  | .token _ => []
  | .node k cs => childrenFrom k p.above [] cs

/-- The tokens among the children. -/
def childTokens (p : Place) : List Token := p.focus.children.filterMap Tree.token?

/-- The first child node of a kind. -/
def child? (p : Place) (k : NodeKind) : Option Place := p.children.find? (·.isKind k)

/-- The first child token of a kind. -/
def childToken? (p : Place) (k : TokenKind) : Option Token :=
  p.childTokens.find? (·.kind == k)

mutual

def descendantsFrom (above : List Frame) : Tree → List Place
  | .token _ => []
  | .node k cs => ⟨.node k cs, above⟩ :: descendantsAll k above [] cs

def descendantsAll (k : NodeKind) (above : List Frame) (before : List Tree) :
    List Tree → List Place
  | [] => []
  | c :: cs =>
    descendantsFrom (⟨k, before, cs⟩ :: above) c ++ descendantsAll k above (c :: before) cs

end

/-- The place and those of all nodes below it, parents before children. -/
def descendants (p : Place) : List Place := descendantsFrom p.above p.focus

/-! ## Offsets -/

/-- The offset at which the focus begins, its leading trivia included. -/
def start (p : Place) : Nat := Frame.offsetAll p.above

/-- The span with the outer trivia. -/
def fullSpan (p : Place) : Span := ⟨p.start, p.start + p.focus.width⟩

/-- The span without the outer trivia. -/
def span (p : Place) : Span :=
  ⟨p.start + p.focus.leadingWidth, p.start + p.focus.width - p.focus.trailingWidth⟩

def describe (p : Place) : String := p.focus.kind.name ++ "@" ++ p.span.render

end Place

/-! ## Tokens -/

/-- A token together with the offset at which its leading trivia begins. -/
structure TokenPlace where
  token : Token
  start : Nat
deriving DecidableEq

namespace TokenPlace

/-- The span of the text of a token. -/
def span (p : TokenPlace) : Span :=
  ⟨p.start + p.token.leading.utf8ByteSize,
    p.start + p.token.leading.utf8ByteSize + p.token.text.utf8ByteSize⟩

/-- The tokens among trees that stand side by side from an offset on. -/
def among (offset : Nat) : List Tree → List TokenPlace
  | [] => []
  | c :: cs =>
    let rest := among (offset + c.width) cs
    match c with
    | .token t => ⟨t, offset⟩ :: rest
    | .node _ _ => rest

end TokenPlace

/-- The tokens among the children, each where it stands. -/
def Place.tokenPlaces (p : Place) : List TokenPlace := TokenPlace.among p.start p.focus.children

end CallFill
