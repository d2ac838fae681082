/-! # Trivia

White space and line comments between the texts of two tokens. The token on the left owns
the rest of its line, line break included; all that follows belongs to the token on the
right. -/

namespace CallFill.Lexical

/-- White space that trivia may hold. -/
def isGap (c : Char) : Bool := c == ' ' || c == '\t' || c == '\r' || c == '\n'

/-- White space within a line. -/
def isIndent (c : Char) : Bool := c == ' ' || c == '\t'

/-- A character that ends a line comment. -/
def endsComment (c : Char) : Bool := c == '\r' || c == '\n'

/-- Splits off white space and comments, beginning inside a comment or outside of one. -/
def gapFrom : (inComment : Bool) → List Char → List Char × List Char
  | _, [] => ([], [])
  | true, c :: cs =>
    let (gap, rest) := gapFrom (!endsComment c) cs
    (c :: gap, rest)
  | false, c :: cs =>
    if isGap c then
      let (gap, rest) := gapFrom false cs
      (c :: gap, rest)
    else if c == '/' && cs.head? == some '/' then
      let (gap, rest) := gapFrom true cs
      (c :: gap, rest)
    else ([], c :: cs)

/-- The trivia before a token: as much white space and as many comments as there are. -/
def leading (cs : List Char) : List Char × List Char := gapFrom false cs

/-- A line comment without its line break, if one begins here. -/
def comment : List Char → List Char × List Char
  | '/' :: '/' :: cs =>
    ('/' :: '/' :: cs.takeWhile (!endsComment ·), cs.dropWhile (!endsComment ·))
  | cs => ([], cs)

/-- A line break, if one begins here; a carriage return alone is none. -/
def lineBreak : List Char → List Char × List Char
  | '\n' :: cs => (['\n'], cs)
  | '\r' :: '\n' :: cs => (['\r', '\n'], cs)
  | cs => ([], cs)

/-- The trivia after a token: the rest of its line. -/
def trailing (cs : List Char) : List Char × List Char :=
  let indent := cs.takeWhile isIndent
  let (note, cs) := comment (cs.dropWhile isIndent)
  let (newline, cs) := lineBreak cs
  (indent ++ note ++ newline, cs)

/-! ## Nothing is lost -/

theorem gapFrom_append (b : Bool) (cs : List Char) :
    (gapFrom b cs).1 ++ (gapFrom b cs).2 = cs := by
  fun_induction gapFrom b cs <;> simp_all

theorem leading_append (cs : List Char) : (leading cs).1 ++ (leading cs).2 = cs :=
  gapFrom_append false cs

theorem comment_append (cs : List Char) : (comment cs).1 ++ (comment cs).2 = cs := by
  fun_cases comment cs <;> simp

theorem lineBreak_append (cs : List Char) : (lineBreak cs).1 ++ (lineBreak cs).2 = cs := by
  fun_cases lineBreak cs <;> simp

theorem trailing_append (cs : List Char) : (trailing cs).1 ++ (trailing cs).2 = cs := by
  simp only [trailing, List.append_assoc]
  rw [lineBreak_append, comment_append, List.takeWhile_append_dropWhile]

end CallFill.Lexical
