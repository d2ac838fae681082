import CallFill.Proofs.Acceptance
import CallFill.Proofs.LineFeed
import CallFill.Proofs.Neighbours

/-!
# An expression and a document of it alone

A text is an expression just when it makes a document with a semicolon on a line of its own behind
it, and the document is one statement, an expression.  The two readings give the same tree but for
the trivia behind its last token: alone, the expression has all of it, and in the document what
does not end the line of that token goes to the semicolon.
-/

namespace CallFill.Grammar

open CallFill.Tree CallFill.Lexical CallFill.Place

/-- The only statement of a document is `s`, an expression with a semicolon. -/
structure IsSole (root : Tree) (s : Place) : Prop where
  children : (ofRoot root).children = [s]
  kind : s.isKind .expressionStatement = true

/-- The same tree with some trivia or other behind its last token. -/
def SameUpToEnd (t u : Tree) : Prop :=
  ∃ (v : Tree) (a b : String), t = v.appendTrailing a ∧ u = v.appendTrailing b

section

variable {source : String}

/-- The tokens of a document of one expression are those of the expression and a semicolon. -/
theorem IsSole.exists_tokens {root : Tree} {s : Place} (h : IsSole root s)
    (hd : document source = .ok root) : ∃ (e : Tree) (semi : Token) (trivia : List Char),
      FitsAs NodeKind.isExpr e ∧ semi.kind = .semicolon ∧
      Lexical.tokens source.toList = (e.tokens ++ [semi], trivia) ∧
      leading trivia = (trivia, []) := by
  obtain ⟨ss, trivia, ht, hl, hss, rfl⟩ := document_sound hd
  have hnodes : ss.filter (·.isNode) = ss := by
    refine List.filter_eq_self.mpr fun t ht => ?_
    obtain ⟨k, cs, rfl, -⟩ := (hss t ht).eq_node
    rfl
  obtain rfl : ss = [s.focus] := by
    have hfocus := map_focus_children
      (ofRoot (.node .compilationUnit (ss ++ [endOfFile (String.ofList trivia)])))
    rw [h.children] at hfocus
    have heof : (endOfFile (String.ofList trivia)).isNode = false := rfl
    simpa [ofRoot, hnodes, heof] using hfocus.symm
  obtain ⟨cs, hs⟩ := isKind_iff.mp h.kind
  have hfits := (hss s.focus (by simp)).fits
  rw [hs] at hfits
  obtain ⟨e, semi, rfl, he, hsemi⟩ := children_of_expressionStatement hfits
  exact ⟨e, semi, trivia, he, hsemi, by simpa [hs] using ht, hl⟩

theorem derives_of_sole {root : Tree} {s : Place} (h : IsSole root s)
    (hd : document (source ++ "\n;") = .ok root) :
    ∃ ws, Cut source.toList ws ∧ Derives .expr ws := by
  obtain ⟨e, semi, trivia, he, hsemi, ht, hl⟩ := h.exists_tokens hd
  have hspelled := spelled_of_tokens ht
  have htext : semi.text = ";" := text_of_mark (hspelled semi (by simp)) hsemi rfl
  have hcut : Cut (source ++ "\n;").toList ((e.tokens ++ [semi]).map Token.text) :=
    cut_iff_tokens.mpr ⟨_, trivia, ht, hl, rfl⟩
  have hsource : (source ++ "\n;").toList = source.toList ++ '\n' :: [';'] := by simp
  obtain ⟨us, vs, hws, hus, hvs⟩ := hcut.split_newline (by decide) hsource
  -- the part behind the line feed is the semicolon alone, which leaves the rest to the expression
  obtain rfl : vs = [";"] :=
    ((cut_iff (Nat.le_refl 1)).mp hvs).2.trans (by decide +kernel)
  obtain rfl : e.tokens.map Token.text = us := by simpa [htext] using hws
  exact ⟨_, hus,
    (isDerivation_of_fits he.fits fun t ht => hspelled t (by simp [ht])).expr he.isOf⟩

theorem fits_appendTrailing {e : Tree} (he : FitsAs NodeKind.isExpr e) (s : String) :
    FitsAs NodeKind.isExpr (e.appendTrailing s) := by
  obtain ⟨k, hface, hk⟩ := he.isOf.face_eq
  exact .of_face (he.fits.appendTrailing s) ((face_appendTrailing s e).trans hface) hk

theorem fits_expressionStatement {e : Tree} {semi : Token} (he : FitsAs NodeKind.isExpr e)
    (hs : semi.kind = .semicolon) :
    FitsAs NodeKind.isStatement (.node .expressionStatement [e, .token semi]) := by
  obtain ⟨k, hface, hk⟩ := he.isOf.face_eq
  refine ⟨.node (.expressionStatement hk) ?_ ?_, rfl⟩
  · simp [hface, Token.face_of_kind hs]
  · simpa using ⟨he.fits, .token semi⟩

/-- The document of an expression and a semicolon with trivia in front of it. -/
def soleDocument (e : Tree) (trivia : String) : Tree :=
  .node .compilationUnit
    [.node .expressionStatement [e, .token ⟨.semicolon, trivia, ";", ""⟩], endOfFile ""]

theorem exists_isSole {e : Tree} (he : FitsAs NodeKind.isExpr e) (trivia : String) :
    ∃ s y, IsSole (soleDocument e trivia) s ∧ s.children = [y] ∧ y.focus = e := by
  obtain ⟨s, hs, hfocus⟩ : ∃ s, (ofRoot (soleDocument e trivia)).children = [s] ∧ s.focus =
      .node .expressionStatement [e, .token ⟨.semicolon, trivia, ";", ""⟩] := ⟨_, rfl, rfl⟩
  obtain ⟨k, cs, rfl, -⟩ := he.eq_node
  have hchildren := map_focus_children s
  rw [hfocus] at hchildren
  obtain ⟨y, hy, hyfocus⟩ := List.map_eq_singleton_iff.mp hchildren
  exact ⟨s, y, ⟨hs, isKind_iff.mpr ⟨_, hfocus⟩⟩, hy, hyfocus⟩

/-- Behind an expression, a semicolon on a line of its own makes a document. -/
theorem document_newline {e : Tree} {trivia : List Char} (he : FitsAs NodeKind.isExpr e)
    (ht : Lexical.tokens source.toList = (e.tokens, trivia)) (hl : leading trivia = (trivia, [])) :
    ∃ s l, document (source ++ "\n;") = .ok (soleDocument (e.appendTrailing s) l) := by
  obtain ⟨init, last, hlast⟩ : ∃ init last, e.tokens = init ++ [last] :=
    ⟨_, _, (List.dropLast_concat_getLast he.fits.tokens_ne_nil).symm⟩
  obtain ⟨s, l, hmore⟩ := tokens_newline (hlast ▸ ht) hl (k := .semicolon) (w := ";") (.mark rfl)
  have hstatement := fits_expressionStatement (fits_appendTrailing he s)
    (show (Token.mk .semicolon l ";" "").kind = .semicolon from rfl)
  have htokens : Lexical.tokens (source ++ "\n;").toList = (tokensAll [.node .expressionStatement
      [e.appendTrailing s, .token ⟨.semicolon, l, ";", ""⟩]], []) := by
    simpa [tokens_appendTrailing s hlast] using hmore
  exact ⟨s, l, document_of_tokens (by simpa using hstatement) htokens rfl⟩

theorem exists_sole {x : Tree} (h : expression source = .ok x) : ∃ root s y,
    document (source ++ "\n;") = .ok root ∧ IsSole root s ∧ s.children = [y] ∧
      SameUpToEnd x y.focus := by
  obtain ⟨e, trivia, ht, hl, he, rfl⟩ := expression_sound h
  obtain ⟨u, l, hd⟩ := document_newline he ht hl
  obtain ⟨s, y, hs, hy, hfocus⟩ := exists_isSole (fits_appendTrailing he u) l
  exact ⟨_, s, y, hd, hs, hy, e, _, u, rfl, hfocus⟩

end

/-- A text is an expression just when it is the only statement of a document with a semicolon on a
line of its own. -/
theorem expression_iff_sole (source : String) :
    ((∃ x, expression source = .ok x) ↔
      ∃ root s, document (source ++ "\n;") = .ok root ∧ IsSole root s) ∧
    ∀ x root s, expression source = .ok x → document (source ++ "\n;") = .ok root →
      IsSole root s → ∃ y, s.children = [y] ∧ SameUpToEnd x y.focus := by
  refine ⟨⟨?_, ?_⟩, ?_⟩
  · rintro ⟨x, hx⟩
    obtain ⟨root, s, y, hd, hs, -⟩ := exists_sole hx
    exact ⟨root, s, hd, hs⟩
  · rintro ⟨root, s, hd, hs⟩
    obtain ⟨ws, hcut, hws⟩ := derives_of_sole hs hd
    exact expression_of_derives hcut hws
  · intro x root s hx hd hs
    obtain ⟨root', s', y, hd', hs', hy, hsame⟩ := exists_sole hx
    obtain rfl := Except.ok.inj (hd.symm.trans hd')
    obtain rfl : s = s' := by simpa using hs.children.symm.trans hs'.children
    exact ⟨y, hy, hsame⟩

/-- A comment and a carriage return at the end: the line feed behind them makes a line break with
the carriage return. -/
theorem expression_iff_sole_noted : ∃ x root s y, expression "f(x) // c\r" = .ok x ∧
    document "f(x) // c\r\n;" = .ok root ∧ IsSole root s ∧ s.children = [y] ∧
      SameUpToEnd x y.focus := by
  have hok : (expression "f(x) // c\r").isOk = true := by decide +kernel
  obtain ⟨x, hx⟩ := exists_ok_of_isOk hok
  have hsole := expression_iff_sole "f(x) // c\r"
  obtain ⟨root, s, hd, hs⟩ := hsole.1.mp ⟨x, hx⟩
  obtain ⟨y, hy, hsame⟩ := hsole.2 x root s hx hd hs
  exact ⟨x, root, s, y, hx, hd, hs, hy, hsame⟩

end CallFill.Grammar
