import CallFill.Grammar.Step
import CallFill.Lexical.Lexeme

/-! # Names and types

`type        := (builtin | tuple | name) ("?" | "*" | "[" ","* "]")*`
`name        := [IDENT "::"] simple-name ("." simple-name)*`
`simple-name := IDENT ["<" type ("," type)* ">"]`
`tuple       := "(" type [IDENT] ("," type [IDENT])+ ")"`

A type holds types only between brackets, so each function below takes the reader for the
types inside as an argument, and `type?` ties the knot with one unit of fuel per level. -/

namespace CallFill.Grammar

/-! ## Names -/

/-- The angle brackets after a name and the types between them. -/
def typeArguments? (type : Reader) (fuel : Nat) : Reader := fun ts =>
  match take? .lessThan ts with
  | none => none
  | some (less, ts) =>
    match items? type fuel ts with
    | none => none
    | some (types, ts) =>
      match take? .greaterThan ts with
      | none => none
      | some (greater, ts) =>
        some (.node .typeArgumentList (.token less :: types ++ [.token greater]), ts)

/-- An identifier, with type arguments where they can be read. -/
def simpleName? (type : Reader) (fuel : Nat) : Reader := fun ts =>
  match take? .identifier ts with
  | none => none
  | some (ident, ts) =>
    match typeArguments? type fuel ts with
    | some (arguments, ts) => some (.node .genericName [.token ident, arguments], ts)
    | none => some (.node .identifierName [.token ident], ts)

/-- A simple name with an alias in front of it. -/
def aliasedName? (type : Reader) (fuel : Nat) : Reader := fun ts =>
  match take? .identifier ts with
  | none => none
  | some (ident, ts) =>
    match take? .colonColon ts with
    | none => none
    | some (colons, ts) =>
      match simpleName? type fuel ts with
      | none => none
      | some (right, ts) =>
        some (.node .aliasQualifiedName
          [.node .identifierName [.token ident], .token colons, right], ts)

/-- The first part of a name. -/
def nameStart? (type : Reader) (fuel : Nat) : Reader := fun ts =>
  (aliasedName? type fuel ts).or (simpleName? type fuel ts)

/-- A dot and a simple name after `left`, joined into a node of the given kind. -/
def dotName? (k : NodeKind) (type : Reader) (fuel : Nat) (left : Tree) : Reader := fun ts =>
  match take? .dot ts with
  | none => none
  | some (dot, ts) =>
    match simpleName? type fuel ts with
    | none => none
    | some (right, ts) => some (.node k [left, .token dot, right], ts)

/-- A name of one part or more. -/
def name? (type : Reader) (fuel : Nat) : Reader := fun ts =>
  match nameStart? type fuel ts with
  | none => none
  | some (left, ts) => some (extend (dotName? .qualifiedName type fuel) fuel left ts)

/-! ## Types -/

/-- A keyword that names a type. -/
def builtinType? : Reader := fun ts =>
  match keyword? Lexical.builtinTypes ts with
  | none => none
  | some (word, ts) => some (.node .predefinedType [.token word], ts)

/-- An element of a tuple: a type and perhaps a name for it. -/
def tupleElement? (type : Reader) : Reader := fun ts =>
  match type ts with
  | none => none
  | some (t, ts) =>
    match take? .identifier ts with
    | some (ident, ts) => some (.node .tupleElement [t, .token ident], ts)
    | none => some (.node .tupleElement [t], ts)

/-- A tuple of at least two elements. -/
def tupleType? (type : Reader) (fuel : Nat) : Reader := fun ts =>
  match take? .openParen ts with
  | none => none
  | some (opening, ts) =>
    match items? (tupleElement? type) fuel ts with
    | none => none
    | some (elements, ts) =>
      if elements.length < 2 then none
      else
        match take? .closeParen ts with
        | none => none
        | some (closing, ts) =>
          some (.node .tupleType (.token opening :: elements ++ [.token closing]), ts)

/-- All commas at the front. -/
def commas : List Token → List Tree × List Token
  | [] => ([], [])
  | t :: ts =>
    if t.kind = .comma then
      let (others, rest) := commas ts
      (.token t :: others, rest)
    else ([], t :: ts)

/-- The brackets after the element type of an array. -/
def rankSpecifier? : Reader := fun ts =>
  match take? .openBracket ts with
  | none => none
  | some (opening, ts) =>
    match take? .closeBracket (commas ts).2 with
    | none => none
    | some (closing, rest) =>
      some (.node .rankSpecifier (.token opening :: (commas ts).1 ++ [.token closing]), rest)

/-- One mark after a type. -/
def typeMark? (left : Tree) : Reader := fun ts =>
  match take? .question ts with
  | some (mark, ts) => some (.node .nullableType [left, .token mark], ts)
  | none =>
    match take? .asterisk ts with
    | some (mark, ts) => some (.node .pointerType [left, .token mark], ts)
    | none =>
      match rankSpecifier? ts with
      | some (rank, ts) => some (.node .arrayType [left, rank], ts)
      | none => none

/-- A type without marks after it. -/
def typeStart? (type : Reader) (fuel : Nat) : Reader := fun ts =>
  ((builtinType? ts).or (tupleType? type fuel ts)).or (name? type fuel ts)

/-- A type in which the types between brackets are read with fuel to spare. -/
def type? : (fuel : Nat) → Reader
  | 0, _ => none
  | fuel + 1, ts =>
    match typeStart? (type? fuel) fuel ts with
    | none => none
    | some (left, ts) => some (extend typeMark? fuel left ts)

end CallFill.Grammar
