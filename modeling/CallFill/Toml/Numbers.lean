import CallFill.Text.Basic
import CallFill.Toml.Value

/-! # TOML numbers and dates

Each reader takes the longest text of its form off the front; what may follow a value is
checked where the value stands. -/

namespace CallFill.Toml

/-- Digits of a class with single underscores between them, at least one; the underscores are
left out of the result. -/
def digits? (digit : Char → Bool) : List Char → Option (List Char × List Char)
  | [] => none
  | [c] => if digit c then some ([c], []) else none
  | c :: d :: cs =>
    if !digit c then none
    else if d == '_' then (digits? digit cs).map fun (ds, rest) => (c :: ds, rest)
    else
      match digits? digit (d :: cs) with
      | some (ds, rest) => some (c :: ds, rest)
      | none => some ([c], d :: cs)

/-- A sign, if there is one. -/
def sign : List Char → Bool × List Char
  | '+' :: cs => (false, cs)
  | '-' :: cs => (true, cs)
  | cs => (false, cs)

def valueOf (base : Nat) (ds : List Char) : Nat :=
  ds.foldl (fun n c => n * base + (Text.hexValue? c).getD 0) 0

/-- Decimal digits; a leading zero stands alone. -/
def decimal? : List Char → Option (List Char × List Char)
  | '0' :: cs => some (['0'], cs)
  | cs => digits? Char.isDigit cs

/-! ## Integers -/

/-- Integers have sixty-four bits. -/
def inRange (n : Int) : Bool := -Int.pow 2 63 ≤ n && n < Int.pow 2 63

def integerOf? (negative : Bool) (base : Nat) (ds : List Char) : Option Toml :=
  let n : Int := if negative then -(valueOf base ds : Int) else valueOf base ds
  if inRange n then some (.integer n) else none

def isHexDigit (c : Char) : Bool := (Text.hexValue? c).isSome

def integer? (cs : List Char) : Option (Toml × List Char) := do
  let based (digit : Char → Bool) (base : Nat) (cs : List Char) := do
    let (ds, rest) ← digits? digit cs
    return (← integerOf? false base ds, rest)
  match cs with
  | '0' :: 'x' :: cs => based isHexDigit 16 cs
  | '0' :: 'o' :: cs => based (fun c => '0' ≤ c && c ≤ '7') 8 cs
  | '0' :: 'b' :: cs => based (fun c => c == '0' || c == '1') 2 cs
  | _ =>
    let (negative, cs) := sign cs
    let (ds, rest) ← decimal? cs
    return (← integerOf? negative 10 ds, rest)

/-! ## Fractional numbers -/

/-- An exponent, with its sign. -/
def exponent? : List Char → Option (Int × List Char)
  | c :: cs => do
    guard (c == 'e' || c == 'E')
    let (negative, cs) := sign cs
    let (ds, rest) ← digits? Char.isDigit cs
    let n : Int := valueOf 10 ds
    return (if negative then -n else n, rest)
  | [] => none

/-- Whether digits times a power of ten round to a number too large for a double: whether
they reach the middle between the largest double and the next power of two. -/
def overflows (ds : List Char) (exponent : Int) : Bool :=
  let n := valueOf 10 ds
  let size : Int := (Nat.toDigits 10 n).length + exponent
  if n = 0 || size < 300 then false
  else if size > 320 then true
  else
    let limit := Nat.pow 2 1024 - Nat.pow 2 970
    if exponent ≥ 0 then limit ≤ n * Nat.pow 10 exponent.toNat
    else limit * Nat.pow 10 (-exponent).toNat ≤ n

/-- A number with a fraction or an exponent, or one of the special numbers. One that is too
large is no number, unless it is negative. -/
def float? (cs : List Char) : Option (Toml × List Char) := do
  let (negative, cs) := sign cs
  match cs with
  | 'i' :: 'n' :: 'f' :: cs => return (.float, cs)
  | 'n' :: 'a' :: 'n' :: cs => return (.float, cs)
  | _ =>
    let (int, cs) ← decimal? cs
    let (frac, exp, rest) ← match cs with
      | '.' :: cs => do
        let (ds, cs) ← digits? Char.isDigit cs
        match cs.head? with
        | some c =>
          if c == 'e' || c == 'E' then
            let (exp, cs) ← exponent? cs
            pure (ds, exp, cs)
          else pure (ds, 0, cs)
        | none => pure (ds, 0, cs)
      | _ => do
        let (exp, cs) ← exponent? cs
        pure ([], exp, cs)
    guard (negative || !overflows (int ++ frac) (exp - frac.length))
    return (.float, rest)

/-! ## Dates and times -/

/-- A number of exactly `count` digits within bounds. -/
def fixed? (count lo hi : Nat) (cs : List Char) : Option (Nat × List Char) := do
  let ds := cs.take count
  guard (ds.length == count && ds.all Char.isDigit)
  let n := valueOf 10 ds
  guard (lo ≤ n && n ≤ hi)
  return (n, cs.drop count)

def char? (c : Char) : List Char → Option (List Char)
  | d :: cs => if c == d then some cs else none
  | [] => none

def daysIn (year month : Nat) : Nat :=
  if month == 2 then
    if year % 4 == 0 && (year % 100 != 0 || year % 400 == 0) then 29 else 28
  else if month == 4 || month == 6 || month == 9 || month == 11 then 30
  else 31

/-- Year, month and day. -/
def day? (cs : List Char) : Option (List Char) := do
  let (year, cs) ← fixed? 4 0 9999 cs
  let cs ← char? '-' cs
  let (month, cs) ← fixed? 2 1 12 cs
  let cs ← char? '-' cs
  let (_, cs) ← fixed? 2 1 (daysIn year month) cs
  return cs

/-- Hour, minute and second, with or without a fraction. -/
def time? (cs : List Char) : Option (List Char) := do
  let (_, cs) ← fixed? 2 0 23 cs
  let cs ← char? ':' cs
  let (_, cs) ← fixed? 2 0 59 cs
  let cs ← char? ':' cs
  let (_, cs) ← fixed? 2 0 60 cs
  match cs with
  | '.' :: cs =>
    guard (cs.head?.any Char.isDigit)
    return cs.dropWhile Char.isDigit
  | _ => return cs

/-- The distance from universal time. -/
def offset? : List Char → Option (List Char)
  | c :: cs =>
    if c == 'Z' || c == 'z' then some cs
    else if c == '+' || c == '-' then do
      let (_, cs) ← fixed? 2 0 23 cs
      let cs ← char? ':' cs
      let (_, cs) ← fixed? 2 0 59 cs
      return cs
    else none
  | [] => none

/-- What follows the day: a time, after a mark, with or without an offset. -/
def timeAfterDay? : List Char → Option (List Char)
  | c :: cs => do
    guard (c == 'T' || c == 't' || c == ' ')
    let cs ← time? cs
    return (offset? cs).getD cs
  | [] => none

/-- A day with or without a time, or a time alone. -/
def date? (cs : List Char) : Option (Toml × List Char) :=
  match day? cs with
  | some cs => some (.date, (timeAfterDay? cs).getD cs)
  | none => (time? cs).map fun cs => (.date, cs)

end CallFill.Toml
