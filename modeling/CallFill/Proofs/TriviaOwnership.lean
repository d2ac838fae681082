import CallFill.Proofs.InnerText
import CallFill.Proofs.Splice

/-!
# Which token owns the trivia

The trivia between two tokens is cut in two.  The token on the left has the rest of its line, up to
the line break and with it, and as much of that as there is; the token on the right has what is
left.  At the end of a document this is the end-of-file token, which has nothing else.  So the text
of a node, which leaves out the trivia at its two ends, begins and ends with a token.
-/

namespace CallFill

namespace Lexical

/-! ## Leading trivia -/

/-- White space and line comments, each of them up to the end of its line. -/
inductive IsTrivia : List Char → Prop
  | nil : IsTrivia []
  | gap {c : Char} {cs : List Char} (hc : isGap c = true) (h : IsTrivia cs) : IsTrivia (c :: cs)
  | comment {body cs : List Char} (hbody : ∀ c ∈ body, endsComment c = false)
      (hend : ∀ c ∈ cs.head?, endsComment c = true) (h : IsTrivia cs) :
      IsTrivia ('/' :: '/' :: body ++ cs)

/-- The end of a comment, and trivia behind it. -/
structure EndsNote (cs body rest : List Char) : Prop where
  parts : cs = body ++ rest
  body : ∀ c ∈ body, endsComment c = false
  stop : ∀ c ∈ rest.head?, endsComment c = true
  rest : IsTrivia rest

/-- What is split off is trivia, or the end of a comment and then trivia. -/
theorem isTrivia_gapFrom (b : Bool) (cs : List Char) :
    if b then ∃ body rest, EndsNote (gapFrom b cs).1 body rest else IsTrivia (gapFrom b cs).1 := by
  fun_induction gapFrom b cs with
  | case1 b =>
      cases b with
      | true => exact ⟨[], [], rfl, by simp, by simp, .nil⟩
      | false => exact .nil
  | case2 c cs gap rest hrec ih =>
      rw [hrec] at ih
      cases hc : endsComment c with
      | true =>
          have htrivia : IsTrivia gap := by simpa [hc] using ih
          exact ⟨[], c :: gap, rfl, by simp, by simpa using hc,
            .gap (isGap_of_endsComment hc) htrivia⟩
      | false =>
          obtain ⟨body, rest, hnote⟩ : ∃ body rest, EndsNote gap body rest := by simpa [hc] using ih
          exact ⟨c :: body, rest, by rw [hnote.parts]; rfl,
            List.forall_mem_cons.mpr ⟨hc, hnote.body⟩, hnote.stop, hnote.rest⟩
  | case3 c cs hc gap rest hrec ih =>
      rw [hrec] at ih
      exact .gap hc ih
  | case4 c cs hc hs gap rest hrec ih =>
      obtain ⟨rfl, hhead⟩ : c = '/' ∧ cs.head? = some '/' := by simpa using hs
      obtain ⟨cs, rfl⟩ := List.head?_eq_some_iff.mp hhead
      rw [hrec] at ih
      obtain ⟨body, rest', hnote⟩ : ∃ body rest, EndsNote gap body rest := ih
      -- the second slash is the first character behind the first one
      obtain ⟨gap', hgap⟩ : ∃ gap', gap = '/' :: gap' :=
        ⟨_, (congrArg Prod.fst hrec).symm⟩
      have hparts := hnote.parts
      rw [hgap] at hparts
      cases body with
      | nil =>
          rw [List.nil_append] at hparts
          exact absurd (hnote.stop '/' (by simp [← hparts])) (by decide)
      | cons d body =>
          obtain ⟨rfl, rfl⟩ := List.cons.inj hparts
          rw [hgap]
          exact .comment (List.forall_mem_cons.mp hnote.body).2 hnote.stop hnote.rest
  | case5 c cs hc hs => exact .nil

theorem isTrivia_leading (cs : List Char) : IsTrivia (leading cs).1 := isTrivia_gapFrom false cs

/-! ## Trailing trivia -/

/-- Blanks and tabs, then at most one comment, then at most one line break. -/
structure RestOfLine (trivia indent note newline : List Char) : Prop where
  parts : trivia = indent ++ note ++ newline
  indent : ∀ c ∈ indent, c = ' ' ∨ c = '\t'
  note : note = [] ∨ ∃ body, note = '/' :: '/' :: body ∧ ∀ c ∈ body, c ≠ '\r' ∧ c ≠ '\n'
  newline : newline = [] ∨ newline = ['\n'] ∨ newline = ['\r', '\n']

/-- What follows does not go on with the rest of the line. -/
structure Leaves (note newline next : List Char) : Prop where
  unbroken : newline = [] → ¬ ['\n'] <+: next ∧ ¬ ['\r', '\n'] <+: next
  bare : newline = [] → note = [] →
    ¬ [' '] <+: next ∧ ¬ ['\t'] <+: next ∧ ¬ ['/', '/'] <+: next

theorem Leaves.of_append {note newline next y : List Char} (h : Leaves note newline (next ++ y)) :
    Leaves note newline next := by
  have hnot {cs : List Char} (hcs : ¬ cs <+: next ++ y) : ¬ cs <+: next :=
    fun h => hcs (h.trans (List.prefix_append next y))
  exact ⟨fun hnewline => (h.unbroken hnewline).imp hnot hnot,
    fun hnewline hnote => (h.bare hnewline hnote).imp hnot (And.imp hnot hnot)⟩

theorem exists_restOfLine {u x : List Char} (h : trailing (u ++ x) = (u, x)) :
    ∃ indent note newline, RestOfLine u indent note newline ∧ Leaves note newline x := by
  rw [trailing_eq_andThen] at h
  obtain ⟨a, newline, rfl, ha, hnewline⟩ := (andThen_eq splits_lineBreak).mp h
  obtain ⟨indent, note, rfl, hindent, hnote⟩ := (andThen_eq splits_comment).mp ha
  obtain ⟨-, hblank, hstop⟩ := run_eq.mp hindent
  refine ⟨indent, note, newline, ⟨rfl, ?_, ?_, eq_of_lineBreak hnewline⟩, ?_, ?_⟩
  · intro c hc
    simpa [isIndent] using hblank c hc
  · cases note with
    | nil => exact .inl rfl
    | cons c note =>
        obtain ⟨body, ds, rfl, rfl, -, hrun⟩ := eq_of_comment hnote
        obtain ⟨-, hbody, -⟩ := run_eq.mp hrun
        exact .inr ⟨body, rfl, fun c hc => by simpa [endsComment] using hbody c hc⟩
  · rintro rfl
    constructor
    · rintro ⟨y, rfl⟩
      cases hnewline
    · rintro ⟨y, rfl⟩
      cases hnewline
  · rintro rfl rfl
    refine ⟨?_, ?_, ?_⟩
    · rintro ⟨y, rfl⟩
      exact hstop ' ' rfl rfl
    · rintro ⟨y, rfl⟩
      exact hstop '\t' rfl rfl
    · rintro ⟨y, rfl⟩
      simp [comment] at hnote

/-- The token on the left has the rest of its line, as far as it goes. -/
def Borders (t u : Token) : Prop :=
  ∃ indent note newline, RestOfLine t.trailing.toList indent note newline ∧
    Leaves note newline u.leading.toList

theorem Settles.borders {t u : Token} {x : List Char} (h : Settles t (u.whole.toList ++ x)) :
    Borders t u := by
  obtain ⟨indent, note, newline, hrest, hleaves⟩ := exists_restOfLine (settles_iff.mp h).2.2
  simp only [Token.whole, String.toList_append, List.append_assoc] at hleaves
  exact ⟨indent, note, newline, hrest, hleaves.of_append⟩

/-- Two tokens side by side in a text, or the last one and the trivia left behind it. -/
theorem Settled.borders {run before after : List Token} {t u eof : Token}
    (h : Settled run eof.whole.toList) (hsplit : run ++ [eof] = before ++ t :: u :: after) :
    Borders t u := by
  obtain ⟨inside, last, hlast⟩ : ∃ inside last, u :: after = inside ++ [last] :=
    ⟨_, _, (List.dropLast_concat_getLast (List.cons_ne_nil u after)).symm⟩
  rw [hlast, ← List.cons_append, ← List.append_assoc] at hsplit
  obtain ⟨rfl, heof⟩ := List.append_inj' hsplit rfl
  obtain rfl : eof = last := List.singleton_inj.mp heof
  have ht : Settles t ((Token.wholeAll inside).toList ++ eof.whole.toList) :=
    (settled_append.mp h).2.1
  have hwhole : (Token.wholeAll inside).toList ++ eof.whole.toList =
      u.whole.toList ++ (Token.wholeAll after).toList := by
    rw [← String.toList_append, ← String.toList_append, ← Token.wholeAll_cons, hlast]
    simp
  rw [hwhole] at ht
  exact ht.borders

theorem Settles.isTrivia_leading {t : Token} {x : List Char} (h : Settles t x) :
    IsTrivia t.leading.toList := by
  have hleading := Lexical.isTrivia_leading (t.whole.toList ++ x)
  rwa [h.leading_eq] at hleading

theorem Settled.isTrivia_leading {ts : List Token} {x : List Char} (h : Settled ts x) :
    ∀ t ∈ ts, IsTrivia t.leading.toList := by
  induction ts with
  | nil => simp
  | cons t ts ih => exact List.forall_mem_cons.mpr ⟨h.1.isTrivia_leading, ih h.2⟩

end Lexical

/-! ## The text of a node -/

namespace Tree

/-- The text of a tree begins and ends with the texts of tokens: not with white space, and not with
a comment, since nothing but the tokens is cut off the text. -/
structure Trimmed (t : Tree) : Prop where
  first : ∃ u ∈ t.tokens.head?, u.text ≠ "" ∧ u.text.toList <+: t.text.toList
  last : ∃ u ∈ t.tokens.getLast?, u.text ≠ "" ∧ u.text.toList <:+ t.text.toList
  before : ∀ c ∈ t.text.toList.head?, Text.isBlank c = false ∧ c ≠ '/'
  behind : ∀ c ∈ t.text.toList.getLast?, Text.isBlank c = false
  tokens : Lexical.tokens t.text.toList = (Token.trim t.tokens, [])

theorem trimmed_of_settled {t : Tree} {x : List Char} (h : Lexical.Settled t.tokens x)
    (hne : t.tokens ≠ []) : Trimmed t := by
  obtain ⟨u, us, hcons⟩ := List.exists_cons_of_ne_nil hne
  obtain ⟨v, hlast⟩ : ∃ v, t.tokens.getLast? = some v := ⟨_, List.getLast?_eq_some_getLast hne⟩
  have hu : u.Spelled := h.spelled u (by simp [hcons])
  have hv : v.Spelled := h.spelled v (List.mem_of_getLast? hlast)
  have hprefix : u.text.toList <+: t.text.toList := by
    rw [text, hcons]
    exact Token.text_prefix_inner u us
  have hsuffix : v.text.toList <:+ t.text.toList := Token.text_suffix_inner hlast
  refine ⟨⟨u, by simp [hcons], hu.text_ne_empty, hprefix⟩,
    ⟨v, hlast, hv.text_ne_empty, hsuffix⟩, ?_, ?_, Lexical.tokens_inner h⟩
  · obtain ⟨c, cs, htext, hc⟩ := Lexical.Lexeme.eq_cons hu
    obtain ⟨rest, hrest⟩ := hprefix
    intro d hd
    rw [← hrest, htext] at hd
    obtain rfl : c = d := by simpa using hd
    exact hc
  · obtain ⟨c, hc⟩ : ∃ c, v.text.toList.getLast? = some c :=
      ⟨_, List.getLast?_eq_some_getLast (by simpa using hv.text_ne_empty)⟩
    obtain ⟨rest, hrest⟩ := hsuffix
    intro d hd
    rw [← hrest, List.getLast?_append, hc] at hd
    obtain rfl : c = d := by simpa using hd
    exact Lexical.Lexeme.not_isBlank_getLast? hv c hc

end Tree

namespace Place

theorem tokens_infix_of_mem_ancestors {p q : Place} (h : p ∈ q.ancestors) :
    q.focus.tokens <:+: p.focus.tokens := by
  obtain ⟨t, fs⟩ := q
  induction fs generalizing t with
  | nil =>
      obtain rfl : p = ⟨t, []⟩ := by simpa [ancestors, ancestorsFrom] using h
      exact List.infix_rfl
  | cons f fs ih =>
      rw [ancestors_cons] at h
      rcases List.mem_cons.mp h with rfl | h
      · exact List.infix_rfl
      · have hfill := ih (f.fill t) h
        rw [f.tokens_fill t] at hfill
        exact (List.infix_append _ _ _).trans hfill

end Place

namespace Grammar

open Lexical

/-- The tokens of a document are those of the text and the end of the file.  Below the root there
are only tokens of the text. -/
theorem document_run {source : String} {root : Tree} (h : document source = .ok root) :
    ∃ run trivia, root.tokens = run ++ [⟨.endOfFile, String.ofList trivia, "", ""⟩] ∧
      Settled run trivia ∧ leading trivia = (trivia, []) ∧
      ∀ p ∈ (Place.ofRoot root).descendants, p ≠ Place.ofRoot root → p.focus.tokens <:+: run := by
  obtain ⟨statements, trivia, htokens, hleading, -, rfl⟩ := document_sound h
  refine ⟨Tree.tokensAll statements, trivia, by simp [endOfFile], (tokens_eq.mp htokens).2.1,
    hleading, fun p hp hne => ?_⟩
  obtain ⟨hnode, habove⟩ := Place.mem_descendants.mp hp
  obtain ⟨s, hs, hsp⟩ :=
    (Place.eq_or_child_of_mem_ancestors hnode habove).resolve_left (Ne.symm hne)
  -- the way down from the root leads through a statement, since the end of the file is no node
  obtain ⟨hmem, hsnode⟩ := Place.focus_of_mem_children hs
  have hstatement : s.focus ∈ statements := by
    rcases List.mem_append.mp hmem with hmem | hmem
    · exact hmem
    · rw [List.mem_singleton.mp hmem] at hsnode
      cases hsnode
  obtain ⟨before, after, rfl⟩ := List.append_of_mem hstatement
  rw [Tree.tokensAll_append, Tree.tokensAll_cons, ← List.append_assoc]
  exact (Place.tokens_infix_of_mem_ancestors hsp).trans (List.infix_append _ _ _)

/-- Every token but the last has the rest of its line, as much as there is, and the last one is the
end of the file, which has leading trivia only.  Leading trivia is white space and comments, and the
text of a node below the root begins and ends with a token. -/
theorem document_trivia {source : String} {root : Tree} (h : document source = .ok root) :
    (∃ run eof, root.tokens = run ++ [eof] ∧ (∀ t ∈ run, t.kind ≠ .endOfFile) ∧
      eof.kind = .endOfFile ∧ eof.text = "" ∧ eof.trailing = "") ∧
    (∀ before t u after, root.tokens = before ++ t :: u :: after → Borders t u) ∧
    (∀ t ∈ root.tokens, IsTrivia t.leading.toList) ∧
    ∀ p ∈ (Place.ofRoot root).descendants, p ≠ Place.ofRoot root → p.focus.Trimmed := by
  obtain ⟨run, trivia, htokens, hsettled, hleading, hbelow⟩ := document_run h
  refine ⟨⟨run, _, htokens, fun t ht => Lexeme.ne_endOfFile (hsettled.spelled t ht), rfl, rfl, rfl⟩,
    fun before t u after hsplit => ?_, fun t ht => ?_, fun p hp hne => ?_⟩
  · rw [htokens] at hsplit
    exact Settled.borders (by simpa [Token.whole] using hsettled) hsplit
  · rw [htokens] at ht
    rcases List.mem_append.mp ht with ht | ht
    · exact hsettled.isTrivia_leading t ht
    · obtain rfl := List.mem_singleton.mp ht
      have htrivia := isTrivia_leading trivia
      rw [hleading] at htrivia
      simpa using htrivia
  · obtain ⟨before, after, hrun⟩ := hbelow p hp hne
    rw [← hrun, List.append_assoc, settled_append, settled_append] at hsettled
    have hfits : p.root.Fits := by
      rw [(Place.mem_descendants_ofRoot.mp hp).2]
      exact document_fits h
    exact Tree.trimmed_of_settled hsettled.2.1 (Place.fits_of_fillAll hfits).tokens_ne_nil

/-- A comment before a carriage return that ends no line: the next token has it. -/
theorem document_trivia_loneReturn :
    ∃ root, document "x // a\r .M();\n" = .ok root ∧
      (∃ before t u after, root.tokens = before ++ t :: u :: after ∧ t.trailing = " // a" ∧
        u.leading = "\r " ∧ Borders t u) ∧ ∀ t ∈ root.tokens, IsTrivia t.leading.toList := by
  have htake : (document "x // a\r .M();\n").toOption.map (·.tokens.take 2) =
      some [⟨.identifier, "", "x", " // a"⟩, ⟨.dot, "\r ", ".", ""⟩] := by decide +kernel
  cases h : document "x // a\r .M();\n" with
  | error e => simp [h, Except.toOption] at htake
  | ok root =>
      rw [h] at htake
      have hfirst : root.tokens.take 2 = _ := Option.some.inj htake
      have htokens := root.tokens.take_append_drop 2
      rw [hfirst] at htokens
      obtain ⟨-, hborders, hleading, -⟩ := document_trivia h
      exact ⟨root, rfl, ⟨[], _, _, _, htokens.symm, rfl, rfl, hborders [] _ _ _ htokens.symm⟩,
        hleading⟩

end Grammar

end CallFill
