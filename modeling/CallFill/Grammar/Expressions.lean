import CallFill.Grammar.Types

/-! # Expressions

`expr      := primary ("." simple-name | arguments)*`
`primary   := "typeof" "(" type ")" | literal | "this" | "(" expr ")" | builtin | name-start`
`arguments := "(" [expr ("," expr)*] ")"` -/

namespace CallFill.Grammar

def typeOf? (fuel : Nat) : Reader := fun ts =>
  match keyword? ["typeof"] ts with
  | none => none
  | some (word, ts) =>
    match take? .openParen ts with
    | none => none
    | some (opening, ts) =>
      match type? fuel ts with
      | none => none
      | some (operand, ts) =>
        match take? .closeParen ts with
        | none => none
        | some (closing, ts) =>
          some (.node .typeOf [.token word, .token opening, operand, .token closing], ts)

def literal? : Reader := fun ts =>
  match ((take? .number ts).or (take? .string ts)).or (keyword? ["true", "false", "null"] ts) with
  | none => none
  | some (t, ts) => some (.node .literal [.token t], ts)

def this? : Reader := fun ts =>
  match keyword? ["this"] ts with
  | none => none
  | some (word, ts) => some (.node .this [.token word], ts)

def parenthesized? (expr : Reader) : Reader := fun ts =>
  match take? .openParen ts with
  | none => none
  | some (opening, ts) =>
    match expr ts with
    | none => none
    | some (inside, ts) =>
      match take? .closeParen ts with
      | none => none
      | some (closing, ts) =>
        some (.node .parenthesized [.token opening, inside, .token closing], ts)

def primary? (expr : Reader) (fuel : Nat) : Reader := fun ts =>
  (((((typeOf? fuel ts).or (literal? ts)).or (this? ts)).or
    (parenthesized? expr ts)).or (builtinType? ts)).or (nameStart? (type? fuel) fuel ts)

def argument? (expr : Reader) : Reader := fun ts =>
  match expr ts with
  | none => none
  | some (e, ts) => some (.node .argument [e], ts)

/-- The arguments of a call; where no expression can be read there are none. -/
def argumentList? (expr : Reader) (fuel : Nat) : Reader := fun ts =>
  match take? .openParen ts with
  | none => none
  | some (opening, ts) =>
    match argument? expr ts with
    | none =>
      match take? .closeParen ts with
      | none => none
      | some (closing, ts) => some (.node .argumentList [.token opening, .token closing], ts)
    | some (first, ts) =>
      match moreItems? (argument? expr) fuel ts with
      | none => none
      | some (others, ts) =>
        match take? .closeParen ts with
        | none => none
        | some (closing, ts) =>
          some (.node .argumentList (.token opening :: first :: others ++ [.token closing]), ts)

/-- One member or one list of arguments after an expression. -/
def suffix? (expr : Reader) (fuel : Nat) (left : Tree) : Reader := fun ts =>
  match dotName? .memberAccess (type? fuel) fuel left ts with
  | some (access, ts) => some (access, ts)
  | none =>
    match argumentList? expr fuel ts with
    | none => none
    | some (arguments, ts) => some (.node .invocation [left, arguments], ts)

def expr? : (fuel : Nat) → Reader
  | 0, _ => none
  | fuel + 1, ts =>
    match primary? (expr? fuel) fuel ts with
    | none => none
    | some (left, ts) => some (extend (suffix? (expr? fuel) fuel) fuel left ts)

end CallFill.Grammar
