import CallFill.Tree.Token

/-! # Syntax trees

A tree is a token or a node with a kind and a list of children. Its tokens, read from left
to right, are its view: text, width and outer trivia are those of that run of tokens, so a
tree loses nothing of the source it was read from. -/

namespace CallFill

inductive Tree where
  | token (t : Token)
  | node (kind : NodeKind) (children : List Tree)
deriving Repr

namespace Tree

/-! ## Equality -/

mutual

def decEq : (a b : Tree) → Decidable (a = b)
  | .token s, .token t =>
    if h : s = t then .isTrue (by rw [h]) else .isFalse (by simpa using h)
  | .token _, .node _ _ => .isFalse (by simp)
  | .node _ _, .token _ => .isFalse (by simp)
  | .node j as, .node k bs =>
    if h : j = k then
      match decEqAll as bs with
      | .isTrue h' => .isTrue (by rw [h, h'])
      | .isFalse h' => .isFalse (by simp [h'])
    else .isFalse (by simp [h])

def decEqAll : (as bs : List Tree) → Decidable (as = bs)
  | [], [] => .isTrue rfl
  | [], _ :: _ => .isFalse (by simp)
  | _ :: _, [] => .isFalse (by simp)
  | a :: as, b :: bs =>
    match decEq a b with
    | .isTrue h =>
      match decEqAll as bs with
      | .isTrue h' => .isTrue (by rw [h, h'])
      | .isFalse h' => .isFalse (by simp [h'])
    | .isFalse h => .isFalse (by simp [h])

end

instance : DecidableEq Tree := decEq

/-! ## Parts -/

def kind : Tree → Kind
  | .token t => .token t.kind
  | .node k _ => .node k

def nodeKind? : Tree → Option NodeKind
  | .token _ => none
  | .node k _ => some k

def token? : Tree → Option Token
  | .token t => some t
  | .node _ _ => none

def isNode : Tree → Bool
  | .token _ => false
  | .node _ _ => true

def children : Tree → List Tree
  | .token _ => []
  | .node _ cs => cs

@[simp] theorem kind_token (t : Token) : (token t).kind = .token t.kind := rfl
@[simp] theorem kind_node (k : NodeKind) (cs : List Tree) : (node k cs).kind = .node k := rfl
@[simp] theorem nodeKind?_node (k : NodeKind) (cs : List Tree) :
    (node k cs).nodeKind? = some k := rfl
@[simp] theorem nodeKind?_token (t : Token) : (token t).nodeKind? = none := rfl
@[simp] theorem children_node (k : NodeKind) (cs : List Tree) : (node k cs).children = cs := rfl
@[simp] theorem children_token (t : Token) : (token t).children = [] := rfl

/-! ## The run of tokens -/

mutual

/-- The tokens of a tree from left to right, in front of a run that follows it. -/
def tokensBefore : Tree → List Token → List Token
  | .token t, ts => t :: ts
  | .node _ cs, ts => tokensAllBefore cs ts

def tokensAllBefore : List Tree → List Token → List Token
  | [], ts => ts
  | c :: cs, ts => c.tokensBefore (tokensAllBefore cs ts)

end

/-- The tokens of a tree from left to right. -/
def tokens (t : Tree) : List Token := t.tokensBefore []

def tokensAll (cs : List Tree) : List Token := tokensAllBefore cs []

mutual

theorem tokensBefore_eq : (t : Tree) → (ts : List Token) → t.tokensBefore ts = t.tokens ++ ts
  | .token t, ts => by simp [tokens, tokensBefore]
  | .node _ cs, ts => by
    simp only [tokens, tokensBefore, tokensAllBefore_eq cs ts, tokensAll]

theorem tokensAllBefore_eq : (cs : List Tree) → (ts : List Token) →
    tokensAllBefore cs ts = tokensAll cs ++ ts
  | [], ts => by simp [tokensAll, tokensAllBefore]
  | c :: cs, ts => by
    simp [tokensAll, tokensAllBefore, tokensBefore_eq c, tokensAllBefore_eq cs ts]

end

@[simp] theorem tokens_token (t : Token) : (token t).tokens = [t] := by
  simp [tokens, tokensBefore]
@[simp] theorem tokens_node (k : NodeKind) (cs : List Tree) :
    (node k cs).tokens = tokensAll cs := by
  simp [tokens, tokensAll, tokensBefore]
@[simp] theorem tokensAll_nil : tokensAll [] = [] := by
  simp [tokensAll, tokensAllBefore]
@[simp] theorem tokensAll_cons (c : Tree) (cs : List Tree) :
    tokensAll (c :: cs) = c.tokens ++ tokensAll cs := by
  simp [tokensAll, tokensAllBefore, tokensBefore_eq]

@[simp] theorem tokensAll_append (as bs : List Tree) :
    tokensAll (as ++ bs) = tokensAll as ++ tokensAll bs := by
  induction as with
  | nil => simp
  | cons a as ih => simp [ih]

def firstToken? (t : Tree) : Option Token := t.tokens.head?

def lastToken? (t : Tree) : Option Token := t.tokens.getLast?

/-- The source of a tree, outer trivia included. -/
def whole (t : Tree) : String := Token.wholeAll t.tokens

/-- The source of a tree without its outer trivia. -/
def text (t : Tree) : String := Token.inner t.tokens

mutual

/-- The number of bytes of the source of a tree. -/
def width : Tree → Nat
  | .token t => t.width
  | .node _ cs => widthAll cs

def widthAll : List Tree → Nat
  | [] => 0
  | c :: cs => c.width + widthAll cs

end

@[simp] theorem widthAll_nil : widthAll [] = 0 := rfl
@[simp] theorem widthAll_cons (c : Tree) (cs : List Tree) :
    widthAll (c :: cs) = c.width + widthAll cs := rfl
@[simp] theorem widthAll_append (as bs : List Tree) :
    widthAll (as ++ bs) = widthAll as + widthAll bs := by
  induction as with
  | nil => simp
  | cons a as ih => simp [ih, Nat.add_assoc]
@[simp] theorem widthAll_reverse (cs : List Tree) : widthAll cs.reverse = widthAll cs := by
  induction cs with
  | nil => rfl
  | cons c cs ih => simp [ih, Nat.add_comm]

mutual

theorem width_eq : (t : Tree) → t.width = Token.widthAll t.tokens
  | .token t => by simp [width]
  | .node _ cs => by simpa [width] using widthAll_eq cs

theorem widthAll_eq : (cs : List Tree) → widthAll cs = Token.widthAll (tokensAll cs)
  | [] => by simp [widthAll]
  | c :: cs => by
    simp only [widthAll, width_eq c, widthAll_eq cs, tokensAll_cons, Token.widthAll_append]

end

def leadingWidth (t : Tree) : Nat := Token.leadingWidth t.tokens

def trailingWidth (t : Tree) : Nat := Token.trailingWidth t.tokens

def describe : Tree → String
  | .token t => t.describe
  | .node k cs => k.name ++ "(" ++ Text.Quoted.quote (whole (.node k cs)) ++ ")"

mutual

/-- The tree with all trivia erased. -/
def strip : Tree → Tree
  | .token t => .token t.strip
  | .node k cs => .node k (stripAll cs)

def stripAll : List Tree → List Tree
  | [] => []
  | c :: cs => c.strip :: stripAll cs

end

end Tree

end CallFill
