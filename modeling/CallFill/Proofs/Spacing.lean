import CallFill.Proofs.Dividers
import CallFill.Proofs.Respelling

/-!
# Spacing

What stands between the tokens of a document is of no account for its tree.  The texts of the
tokens may be set apart by any white space and any comments that end with their line: they are cut
into the same texts again, and so they are read as the same tree up to trivia.
-/

namespace CallFill

namespace Lexical

/-- White space and comments, each comment with the character that ends it. -/
inductive Spacing : List Char → Prop
  | nil : Spacing []
  | gap {c : Char} {cs : List Char} (hc : isGap c = true) (h : Spacing cs) : Spacing (c :: cs)
  | comment {u cs : List Char} {c : Char} (hu : ∀ d ∈ u, endsComment d = false)
      (hc : endsComment c = true) (h : Spacing cs) : Spacing ('/' :: '/' :: (u ++ c :: cs))

/-- The texts one after the other, each with a gap behind it. -/
def spaced (ws gaps : List String) : String := String.join (List.zipWith (· ++ ·) ws gaps)

section

variable {g cs : List Char} {ws : List String}

/-- Spacing begins with a character that divides tokens. -/
theorem Spacing.eq_cons (h : Spacing g) (hne : g ≠ []) : ∃ c cs, g = c :: cs ∧ Divides c := by
  cases h with
  | nil => exact absurd rfl hne
  | gap hc _ => exact ⟨_, _, rfl, divides_of_isGap hc⟩
  | comment _ _ _ => exact ⟨_, _, rfl, divides_slash⟩

/-- Spacing in front of a text is skipped. -/
theorem Cut.space (hg : Spacing g) (h : Cut cs ws) : Cut (g ++ cs) ws := by
  induction hg with
  | nil => exact h
  | gap hc _ ih => exact .gap hc ih
  | @comment u g c hu hc _ ih =>
      suffices hrest : Cut ((u ++ c :: (g ++ cs)).dropWhile (!endsComment ·)) ws by
        simpa using Cut.comment hrest
      have hdrop : (u ++ c :: (g ++ cs)).dropWhile (!endsComment ·) = c :: (g ++ cs) :=
        (span_stop (by simpa using hu) _ (by simpa using hc)).2
      rw [hdrop]
      exact .gap (isGap_of_endsComment hc) ih

theorem Cut.token_space {k : TokenKind} {w : List Char} (hw : Lexeme k w []) (hg : Spacing g)
    (hne : g ≠ []) (h : Cut cs ws) : Cut (w ++ (g ++ cs)) (String.ofList w :: ws) := by
  have hrest := h.space hg
  obtain ⟨c, ds, rfl, hc⟩ := hg.eq_cons hne
  exact .token (hw.append_cons hc (ds ++ cs)) hrest

/-- Texts of tokens with a gap behind each are cut into these texts. -/
theorem cut_spaced {ts : List Token} (hts : ∀ t ∈ ts, t.Spelled) {gaps : List String}
    (hlen : gaps.length = ts.length) (hgaps : ∀ g ∈ gaps, Spacing g.toList ∧ g ≠ "") :
    Cut (spaced (ts.map Token.text) gaps).toList (ts.map Token.text) := by
  induction ts generalizing gaps with
  | nil => exact .done
  | cons t ts ih =>
      obtain ⟨g, gaps, rfl⟩ := List.exists_cons_of_length_eq_add_one hlen
      obtain ⟨ht, hts⟩ := List.forall_mem_cons.mp hts
      obtain ⟨⟨hg, hne⟩, hgaps⟩ := List.forall_mem_cons.mp hgaps
      have hne : g.toList ≠ [] := by simpa using hne
      have hrest := ih hts (Nat.succ.inj hlen) hgaps
      simpa [spaced] using Cut.token_space ht hg hne hrest

end

end Lexical

/-- The texts of the tokens of a tree, but for the one at the end of the file. -/
def Tree.words (t : Tree) : List String :=
  (t.tokens.filter (·.kind != .endOfFile)).map Token.text

namespace Grammar

open CallFill.Tree CallFill.Lexical

theorem words_document {ss : List Tree} (hs : ∀ t ∈ tokensAll ss, t.Spelled) (trivia : String) :
    (Tree.node .compilationUnit (ss ++ [endOfFile trivia])).words =
      (tokensAll ss).map Token.text := by
  have hkinds : ∀ t ∈ tokensAll ss, (t.kind != .endOfFile) = true := fun t ht => by
    simpa using Lexeme.ne_endOfFile (hs t ht)
  simp [words, endOfFile, List.filter_eq_self.mpr hkinds]

/-- However the tokens of a document are set apart, they are read as the same tree up to
trivia. -/
theorem document_respaced {source : String} {root : Tree} (h : document source = .ok root)
    {gaps : List String} (hlen : gaps.length = root.words.length)
    (hgaps : ∀ g ∈ gaps, Spacing g.toList ∧ g ≠ "") : ∃ root',
      document (spaced root.words gaps) = .ok root' ∧ root'.strip = root.strip := by
  obtain ⟨ss, trivia, ht, -, hss, rfl⟩ := document_sound h
  have hs := spelled_of_tokens ht
  rw [words_document hs] at hlen ⊢
  have hcut := cut_spaced hs (by simpa using hlen) hgaps
  obtain ⟨us, trivia', hd, hus⟩ := document_of_cut hss hs hcut
  exact ⟨_, hd, by simp [hus, endOfFile, Token.strip]⟩

/-- A generic call with a comment behind the name and a lone carriage return in the list. -/
theorem document_respaced_generic : ∃ root root',
    document "a.b<int>(1.5);" = .ok root ∧
      root.words = ["a", ".", "b", "<", "int", ">", "(", "1.5", ")", ";"] ∧
      document "a // c\r. b\n<\tint > (\r1.5 ) // )\n; " = .ok root' ∧
      root'.strip = root.strip := by
  have hok : (document "a.b<int>(1.5);").isOk = true := by decide +kernel
  have hwords : (document "a.b<int>(1.5);").toOption.map words =
      some ["a", ".", "b", "<", "int", ">", "(", "1.5", ")", ";"] := by decide +kernel
  obtain ⟨root, hd⟩ := exists_ok_of_isOk hok
  obtain hwords : root.words = _ := by simpa [hd, Except.toOption] using hwords
  have hblank {c : Char} (hc : isGap c = true) : Spacing [c] := .gap hc .nil
  have hgaps : ∀ g ∈ [" // c\r", " ", "\n", "\t", " ", " ", "\r", " ", " // )\n", " "],
      Spacing g.toList ∧ g ≠ "" := by
    simp only [List.forall_mem_cons, List.not_mem_nil, false_implies, implies_true, and_true]
    exact ⟨⟨.gap rfl (.comment (u := [' ', 'c']) (by simp [endsComment]) rfl .nil), by decide⟩,
      ⟨hblank rfl, by decide⟩, ⟨hblank rfl, by decide⟩, ⟨hblank rfl, by decide⟩,
      ⟨hblank rfl, by decide⟩, ⟨hblank rfl, by decide⟩, ⟨hblank rfl, by decide⟩,
      ⟨hblank rfl, by decide⟩,
      ⟨.gap rfl (.comment (u := [' ', ')']) (by simp [endsComment]) rfl .nil), by decide⟩,
      hblank rfl, by decide⟩
  obtain ⟨root', hd', hstrip⟩ := document_respaced hd (by rw [hwords]; rfl) hgaps
  rw [hwords] at hd'
  exact ⟨root, root', hd, hwords, hd', hstrip⟩

end Grammar

end CallFill
