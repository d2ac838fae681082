/-! # Lines and columns

A position is a line and a column, both counted from one; a column counts characters. The
two conversions between positions and byte offsets walk the text from its start. -/

namespace CallFill.Text

structure Position where
  line : Nat
  column : Nat
deriving DecidableEq, Repr

namespace Position

def first : Position := ⟨1, 1⟩

/-- The position after reading one more character. -/
def next (p : Position) (c : Char) : Position :=
  if c = '\n' then ⟨p.line + 1, 1⟩ else ⟨p.line, p.column + 1⟩

/-- The position reached from `p` once at least `bytes` bytes, or all characters, are read. -/
def walk : List Char → (bytes : Nat) → Position → Position
  | [], _, p => p
  | c :: cs, bytes, p => if bytes = 0 then p else walk cs (bytes - c.utf8Size) (p.next c)

/-- The position of a byte offset; one past the end has the position of the end. -/
def ofOffset (content : String) (offset : Nat) : Position :=
  walk content.toList offset first

/-- The bytes before the character that has `columns` characters of its line before it. -/
def columnOffset : List Char → (columns : Nat) → Nat
  | [], _ => 0
  | _ :: _, 0 => 0
  | c :: cs, columns + 1 => if c = '\n' then 0 else c.utf8Size + columnOffset cs columns

/-- The bytes before the place that is `lines` line breaks and then `columns` characters on. -/
def lineOffset : List Char → (lines columns : Nat) → Nat
  | cs, 0, columns => columnOffset cs columns
  | [], _ + 1, _ => 0
  | c :: cs, lines + 1, columns =>
    c.utf8Size + lineOffset cs (if c = '\n' then lines else lines + 1) columns

/-- The byte offset of a position. Zero counts as one, a column past the end of its line as
the end of the line, and a line past the last as the end of the text. -/
def toOffset (content : String) (p : Position) : Nat :=
  lineOffset content.toList (p.line - 1) (p.column - 1)

end Position

end CallFill.Text
