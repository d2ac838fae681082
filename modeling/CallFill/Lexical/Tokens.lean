import CallFill.Lexical.Lexeme
import CallFill.Lexical.Trivia
import CallFill.Tree.Token

/-! # Tokens of a text

A text is cut into tokens from left to right up to the first place where none begins. -/

namespace CallFill.Lexical

/-- The next token with its trivia, and what follows. -/
def token? (cs : List Char) : Option (Token × List Char) :=
  match lexeme? (leading cs).2 with
  | none => none
  | some (kind, text, rest) =>
    some (⟨kind, String.ofList (leading cs).1, String.ofList text,
      String.ofList (trailing rest).1⟩, (trailing rest).2)

/-- At most `fuel` tokens, and what is left of the text after them. -/
def cut : (fuel : Nat) → List Char → List Token × List Char
  | 0, cs => ([], cs)
  | fuel + 1, cs =>
    match token? cs with
    | none => ([], cs)
    | some (t, rest) =>
      let (ts, rest) := cut fuel rest
      (t :: ts, rest)

/-- All tokens, and what is left after them: trivia, and then a character that begins no
token or the end of the text. A token has at least one character, so the fuel suffices. -/
def tokens (cs : List Char) : List Token × List Char := cut cs.length cs

/-! ## Nothing is lost -/

theorem token?_append {cs rest : List Char} {t : Token} (h : token? cs = some (t, rest)) :
    t.whole.toList ++ rest = cs := by
  unfold token? at h
  split at h
  · simp at h
  · next k text r hl =>
    simp only [Option.some.injEq, Prod.mk.injEq] at h
    rw [← h.1, ← h.2]
    simp only [Token.whole, String.toList_append, String.toList_ofList, List.append_assoc,
      trailing_append, lexeme?_append hl, leading_append]

theorem cut_append (fuel : Nat) (cs : List Char) :
    (Token.wholeAll (cut fuel cs).1).toList ++ (cut fuel cs).2 = cs := by
  induction fuel generalizing cs with
  | zero => simp [cut, Token.wholeAll]
  | succ fuel ih =>
    simp only [cut]
    split
    · simp [Token.wholeAll]
    · next t rest ht =>
      have h := ih rest
      simp only [Token.wholeAll, List.map_cons, String.toList_join, List.flatMap_cons,
        List.append_assoc] at h ⊢
      rw [h, token?_append ht]

theorem tokens_append (cs : List Char) :
    (Token.wholeAll (tokens cs).1).toList ++ (tokens cs).2 = cs := cut_append _ cs

end CallFill.Lexical
