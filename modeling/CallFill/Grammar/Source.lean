import CallFill.Grammar.Statements
import CallFill.Lexical.Tokens
import CallFill.Text.Basic
import CallFill.Tree.Edit
import CallFill.Tree.Role

/-! # Reading a source text

A document is a run of statements, an expression stands alone; both take the whole text.
The trivia after the last token goes to the end-of-file token of a document and to the last
token of an expression. -/

namespace CallFill.Grammar

/-- Why a text cannot be read. -/
inductive SyntaxError where
  /-- Nothing but white space where an expression is wanted. -/
  | empty
  /-- The text before the offset can be read and what follows cannot continue it. -/
  | unexpected (offset : Nat)
deriving DecidableEq, Repr

def SyntaxError.message : SyntaxError → String
  | .empty => "empty input"
  | .unexpected offset => "invalid syntax at offset " ++ toString offset ++ ": unexpected input"

/-- The trivia after the tokens that were read, and whether the text goes on after it. -/
def remainder (ts : List Token) (rest : List Char) : String × Bool :=
  match ts with
  | t :: _ => (t.leading, true)
  | [] => (String.ofList (Lexical.leading rest).1, !(Lexical.leading rest).2.isEmpty)

def endOfFile (trivia : String) : Tree := .token ⟨.endOfFile, trivia, "", ""⟩

def document (source : String) : Except SyntaxError Tree :=
  let (ts, rest) := Lexical.tokens source.toList
  let fuel := ts.length + 1
  let (statements, ts) := many (statement? fuel) fuel ts
  let (trivia, more) := remainder ts rest
  if more then .error (.unexpected (Tree.widthAll statements + trivia.utf8ByteSize))
  else .ok (.node .compilationUnit (statements ++ [endOfFile trivia]))

def expression (source : String) : Except SyntaxError Tree :=
  if source.toList.all Text.isBlank then .error .empty
  else
    let (ts, rest) := Lexical.tokens source.toList
    match expr? (ts.length + 1) ts with
    | none => .error (.unexpected 0)
    | some (e, ts) =>
      let (trivia, more) := remainder ts rest
      if more then .error (.unexpected (e.width + trivia.utf8ByteSize))
      else .ok (e.appendTrailing trivia)

/-! ## Types given by name

The text of a type is read as the operand of a `typeof` expression, so any operand of one is
accepted and nothing else. -/

/-- The tree of a type name; none when the text is no type. -/
def namedType? (name : String) : Option Tree :=
  match expression ("typeof(" ++ Text.trim name ++ ")") with
  | .error _ => none
  | .ok e =>
    if e.nodeKind? = some .typeOf then (Place.ofRoot e).typeOperand?.map (·.focus) else none

end CallFill.Grammar
