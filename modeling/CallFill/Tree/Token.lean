import CallFill.Text.Quoted
import CallFill.Tree.Kind

/-! # Tokens

A token is a piece of source text with the trivia around it: the white space and comments
that belong to it on either side. The whole text of a run of tokens is the source they were
cut from; its inner text leaves out the trivia at the two ends. -/

namespace CallFill

structure Token where
  kind : TokenKind
  leading : String
  text : String
  trailing : String
deriving DecidableEq, Repr

namespace Token

/-- A token without trivia. -/
def bare (kind : TokenKind) (text : String) : Token := ⟨kind, "", text, ""⟩

/-- The text with its trivia. -/
def whole (t : Token) : String := t.leading ++ t.text ++ t.trailing

/-- The number of bytes of the whole text. -/
def width (t : Token) : Nat :=
  t.leading.utf8ByteSize + t.text.utf8ByteSize + t.trailing.utf8ByteSize

def appendTrailing (t : Token) (trivia : String) : Token :=
  { t with trailing := t.trailing ++ trivia }

/-- The token without its trivia. -/
def strip (t : Token) : Token := bare t.kind t.text

def describe (t : Token) : String := t.kind.name ++ "(" ++ Text.Quoted.quote t.text ++ ")"

@[simp] theorem whole_bare (k : TokenKind) (s : String) : (bare k s).whole = s := by
  simp [bare, whole]

theorem width_eq (t : Token) : t.width = t.whole.utf8ByteSize := by
  simp [width, whole, String.utf8ByteSize_append]

/-- The source that a run of tokens was cut from. -/
def wholeAll (ts : List Token) : String := String.join (ts.map whole)

def widthAll : List Token → Nat
  | [] => 0
  | t :: ts => t.width + widthAll ts

@[simp] theorem widthAll_nil : widthAll [] = 0 := rfl
@[simp] theorem widthAll_cons (t : Token) (ts : List Token) :
    widthAll (t :: ts) = t.width + widthAll ts := rfl
@[simp] theorem widthAll_append (ts us : List Token) :
    widthAll (ts ++ us) = widthAll ts + widthAll us := by
  induction ts with
  | nil => simp
  | cons t ts ih => simp [ih, Nat.add_assoc]

/-- The whole text of a run without the trailing trivia of its last token. -/
def upToLast : List Token → String
  | [] => ""
  | [t] => t.leading ++ t.text
  | t :: ts => t.whole ++ upToLast ts

/-- The text of a run without the trivia at its two ends. -/
def inner : List Token → String
  | [] => ""
  | [t] => t.text
  | t :: ts => t.text ++ t.trailing ++ upToLast ts

/-- The number of bytes of trivia before the first text of a run. -/
def leadingWidth (ts : List Token) : Nat :=
  match ts.head? with
  | some t => t.leading.utf8ByteSize
  | none => 0

/-- The number of bytes of trivia after the last text of a run. -/
def trailingWidth (ts : List Token) : Nat :=
  match ts.getLast? with
  | some t => t.trailing.utf8ByteSize
  | none => 0

end Token

end CallFill
