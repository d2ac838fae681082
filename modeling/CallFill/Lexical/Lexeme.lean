import CallFill.Text.Basic
import CallFill.Tree.Kind

/-! # Lexemes

The text of the next token. Its first character decides its class: a digit begins a number,
a quote a string, a letter, an underscore or an at sign a word, and anything else stands for
itself or for nothing. Words and numbers are as long as they can be. -/

namespace CallFill.Lexical

open Text

/-! ## Words -/

/-- Keywords that name built-in types. -/
def builtinTypes : List String :=
  ["bool", "byte", "sbyte", "char", "decimal", "double", "float", "int", "uint", "long",
   "ulong", "short", "ushort", "object", "string", "void", "nint", "nuint"]

/-- The other words that are no identifiers. -/
def reservedWords : List String :=
  ["typeof", "using", "true", "false", "null", "this", "new", "class", "interface",
   "namespace", "return"]

def isReserved (word : String) : Bool :=
  builtinTypes.contains word || reservedWords.contains word

/-- A word is a keyword or an identifier. -/
def wordKind (word : String) : TokenKind := if isReserved word then .keyword else .identifier

def beginsWord (c : Char) : Bool := isAlphabetic c || c == '_'

def continuesWord (c : Char) : Bool := isAlphabetic c || isNumeric c || c == '_'

/-- A word, perhaps with an at sign in front. -/
def word? : List Char → Option (List Char × List Char)
  | [] => none
  | c :: cs =>
    if beginsWord c then some (c :: cs.takeWhile continuesWord, cs.dropWhile continuesWord)
    else if c == '@' then
      match cs with
      | [] => none
      | d :: ds =>
        if beginsWord d then
          some (c :: d :: ds.takeWhile continuesWord, ds.dropWhile continuesWord)
        else none
    else none

/-! ## Numbers -/

/-- A letter that may follow the digits of a number. -/
def isNumberSuffix (c : Char) : Bool :=
  c == 'f' || c == 'F' || c == 'd' || c == 'D' || c == 'm' || c == 'M' ||
  c == 'l' || c == 'L' || c == 'u' || c == 'U'

/-- A point and the digits after it, if there are any. -/
def fraction : List Char → List Char × List Char
  | '.' :: d :: cs =>
    if d.isDigit then ('.' :: d :: cs.takeWhile Char.isDigit, cs.dropWhile Char.isDigit)
    else ([], '.' :: d :: cs)
  | cs => ([], cs)

/-- The digits from here on, the fraction and the suffix of a number. -/
def number (cs : List Char) : List Char × List Char :=
  let (decimals, rest) := fraction (cs.dropWhile Char.isDigit)
  (cs.takeWhile Char.isDigit ++ decimals ++ rest.takeWhile isNumberSuffix,
    rest.dropWhile isNumberSuffix)

/-! ## Strings -/

/-- The rest of a string after its opening quote. A backslash takes the next character with
it; a bare line feed or the end of the text leaves the string open. -/
def stringTail? : List Char → Option (List Char × List Char)
  | [] => none
  | c :: cs =>
    if c == '"' then some ([c], cs)
    else if c == '\n' then none
    else if c == '\\' then
      match cs with
      | [] => none
      | d :: ds =>
        match stringTail? ds with
        | some (tail, rest) => some (c :: d :: tail, rest)
        | none => none
    else
      match stringTail? cs with
      | some (tail, rest) => some (c :: tail, rest)
      | none => none

/-! ## Punctuation -/

def punctuation? : List Char → Option (TokenKind × List Char × List Char)
  | '.' :: cs => some (.dot, ['.'], cs)
  | ',' :: cs => some (.comma, [','], cs)
  | ';' :: cs => some (.semicolon, [';'], cs)
  | '=' :: cs => some (.equals, ['='], cs)
  | '(' :: cs => some (.openParen, ['('], cs)
  | ')' :: cs => some (.closeParen, [')'], cs)
  | '<' :: cs => some (.lessThan, ['<'], cs)
  | '>' :: cs => some (.greaterThan, ['>'], cs)
  | '[' :: cs => some (.openBracket, ['['], cs)
  | ']' :: cs => some (.closeBracket, [']'], cs)
  | '?' :: cs => some (.question, ['?'], cs)
  | '*' :: cs => some (.asterisk, ['*'], cs)
  | ':' :: ':' :: cs => some (.colonColon, [':', ':'], cs)
  | _ => none

/-! ## All classes -/

/-- The kind and the text of the next token, and what follows it. -/
def lexeme? : List Char → Option (TokenKind × List Char × List Char)
  | [] => none
  | c :: cs =>
    if c.isDigit then some (.number, number (c :: cs))
    else if c == '"' then
      match stringTail? cs with
      | some (tail, rest) => some (.string, c :: tail, rest)
      | none => none
    else
      match word? (c :: cs) with
      | some (text, rest) => some (wordKind (String.ofList text), text, rest)
      | none => punctuation? (c :: cs)

/-! ## Nothing is lost -/

theorem word?_append {cs text rest : List Char} (h : word? cs = some (text, rest)) :
    text ++ rest = cs := by
  revert h
  fun_cases word? cs <;> simp_all <;> rintro rfl rfl <;> simp

theorem fraction_append (cs : List Char) : (fraction cs).1 ++ (fraction cs).2 = cs := by
  fun_cases fraction cs <;> simp_all

theorem number_append (cs : List Char) : (number cs).1 ++ (number cs).2 = cs := by
  simp only [number, List.append_assoc]
  rw [List.takeWhile_append_dropWhile, fraction_append, List.takeWhile_append_dropWhile]

theorem stringTail?_append {cs text rest : List Char} (h : stringTail? cs = some (text, rest)) :
    text ++ rest = cs := by
  fun_induction stringTail? cs generalizing text rest <;>
    simp_all <;> obtain ⟨rfl, rfl⟩ := h <;> simp_all

theorem punctuation?_append {cs text rest : List Char} {k : TokenKind}
    (h : punctuation? cs = some (k, text, rest)) : text ++ rest = cs := by
  revert h
  fun_cases punctuation? cs <;> simp <;> rintro rfl rfl rfl <;> simp

theorem lexeme?_append {cs text rest : List Char} {k : TokenKind}
    (h : lexeme? cs = some (k, text, rest)) : text ++ rest = cs := by
  cases cs with
  | nil => simp [lexeme?] at h
  | cons c cs =>
    simp only [lexeme?] at h
    split at h
    · simp only [Option.some.injEq, Prod.mk.injEq] at h
      simpa [h.2] using number_append (c :: cs)
    · split at h
      · split at h <;> simp at h
        next ht => simp [← h.2.1, ← h.2.2, stringTail?_append ht]
      · split at h
        · simp only [Option.some.injEq, Prod.mk.injEq] at h
          next hw => rw [← h.2.1, ← h.2.2, word?_append hw]
        · exact punctuation?_append h

end CallFill.Lexical
