import CallFill.Grammar.Expressions

/-! # Statements

`statement := "using" name ";" | type IDENT "=" expr ";" | expr ";"`

The first form that can be read is taken. -/

namespace CallFill.Grammar

def using? (fuel : Nat) : Reader := fun ts =>
  match keyword? ["using"] ts with
  | none => none
  | some (word, ts) =>
    match name? (type? fuel) fuel ts with
    | none => none
    | some (name, ts) =>
      match take? .semicolon ts with
      | none => none
      | some (semi, ts) => some (.node .usingDirective [.token word, name, .token semi], ts)

def localDeclaration? (fuel : Nat) : Reader := fun ts =>
  match type? fuel ts with
  | none => none
  | some (type, ts) =>
    match take? .identifier ts with
    | none => none
    | some (ident, ts) =>
      match take? .equals ts with
      | none => none
      | some (equals, ts) =>
        match expr? fuel ts with
        | none => none
        | some (value, ts) =>
          match take? .semicolon ts with
          | none => none
          | some (semi, ts) =>
            some (.node .localDeclaration
              [type, .token ident, .token equals, value, .token semi], ts)

def expressionStatement? (fuel : Nat) : Reader := fun ts =>
  match expr? fuel ts with
  | none => none
  | some (e, ts) =>
    match take? .semicolon ts with
    | none => none
    | some (semi, ts) => some (.node .expressionStatement [e, .token semi], ts)

def statement? (fuel : Nat) : Reader := fun ts =>
  ((using? fuel ts).or (localDeclaration? fuel ts)).or (expressionStatement? fuel ts)

end CallFill.Grammar
