import CallFill.Tree.Basic

/-! # Steps of a reading

A reading takes tokens off the front of a list and gives what it read and the tokens after
it, or nothing. Repetitions carry fuel; every round takes a token, so fuel for as many rounds
as there are tokens never runs out. -/

namespace CallFill.Grammar

/-- What reads one tree off the front of a list of tokens. -/
abbrev Reader := List Token → Option (Tree × List Token)

/-- The next token, if it is of the given kind. -/
def take? (k : TokenKind) : List Token → Option (Token × List Token)
  | [] => none
  | t :: ts => if t.kind = k then some (t, ts) else none

/-- The next token, if it is a keyword among `words`. -/
def keyword? (words : List String) : List Token → Option (Token × List Token)
  | [] => none
  | t :: ts => if t.kind = .keyword ∧ t.text ∈ words then some (t, ts) else none

/-- Extends `left` for as long as `step` can. -/
def extend (step : Tree → Reader) : (fuel : Nat) → Tree → List Token → Tree × List Token
  | 0, left, ts => (left, ts)
  | fuel + 1, left, ts =>
    match step left ts with
    | none => (left, ts)
    | some (longer, rest) => extend step fuel longer rest

/-- Commas, each followed by one more item. A comma without an item fails. -/
def moreItems? (item : Reader) : (fuel : Nat) → List Token → Option (List Tree × List Token)
  | 0, ts => some ([], ts)
  | fuel + 1, ts =>
    match take? .comma ts with
    | none => some ([], ts)
    | some (comma, ts) =>
      match item ts with
      | none => none
      | some (next, ts) =>
        match moreItems? item fuel ts with
        | none => none
        | some (others, ts) => some (.token comma :: next :: others, ts)

/-- One item or more, with commas between them. -/
def items? (item : Reader) (fuel : Nat) (ts : List Token) : Option (List Tree × List Token) :=
  match item ts with
  | none => none
  | some (first, ts) =>
    match moreItems? item fuel ts with
    | none => none
    | some (others, ts) => some (first :: others, ts)

/-- Trees for as long as one can be read. -/
def many (item : Reader) : (fuel : Nat) → List Token → List Tree × List Token
  | 0, ts => ([], ts)
  | fuel + 1, ts =>
    match item ts with
    | none => ([], ts)
    | some (t, ts) =>
      let (others, ts) := many item fuel ts
      (t :: others, ts)

end CallFill.Grammar
