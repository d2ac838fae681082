import CallFill.Proofs.TokenText
import CallFill.Text.Basic

/-!
# Cutting a text into tokens

A text is cut into the texts of its tokens with white space and comments before, between and after
them.  Whether the trivia between two tokens belongs to the left or to the right one does not
matter here: what one token leaves behind, the next one skips.
-/

namespace CallFill.Lexical

/-- The texts of the tokens of a text.  A comment goes to the end of its line. -/
inductive Cut : List Char → List String → Prop
  | done : Cut [] []
  | gap {c : Char} {cs : List Char} {ws : List String} (hc : isGap c = true) (h : Cut cs ws) :
      Cut (c :: cs) ws
  | comment {cs : List Char} {ws : List String} (h : Cut (cs.dropWhile (!endsComment ·)) ws) :
      Cut ('/' :: '/' :: cs) ws
  | token {k : TokenKind} {w rest : List Char} {ws : List String} (hw : Lexeme k w rest)
      (h : Cut rest ws) : Cut (w ++ rest) (String.ofList w :: ws)

/-! ## Trivia before a token -/

theorem isGap_iff {c : Char} :
    isGap c = true ↔ isIndent c = true ∨ endsComment c = true := by
  simp [isGap, isIndent, endsComment, or_assoc]

theorem isGap_of_endsComment {c : Char} (h : endsComment c = true) : isGap c = true :=
  isGap_iff.mpr (.inr h)

theorem isGap_of_isIndent {c : Char} (h : isIndent c = true) : isGap c = true :=
  isGap_iff.mpr (.inl h)

theorem gapFrom_true (cs : List Char) :
    (gapFrom true cs).2 = (leading (cs.dropWhile (!endsComment ·))).2 := by
  induction cs with
  | nil => rfl
  | cons c cs ih =>
      cases hc : endsComment c with
      | true => simp [gapFrom, leading, hc, isGap_of_endsComment hc]
      | false => simpa [gapFrom, hc] using ih

theorem leading_gap {c : Char} (hc : isGap c = true) (cs : List Char) :
    (leading (c :: cs)).2 = (leading cs).2 := by
  simp [leading, gapFrom, hc]

theorem leading_comment (cs : List Char) :
    (leading ('/' :: '/' :: cs)).2 = (leading (cs.dropWhile (!endsComment ·))).2 := by
  rw [← gapFrom_true]
  rfl

/-- No trivia begins here. -/
structure NoTrivia (cs : List Char) : Prop where
  gap : ∀ c ∈ cs.head?, ¬ isGap c = true
  comment : ∀ ds, cs ≠ '/' :: '/' :: ds

theorem leading_eq_self {cs : List Char} (h : NoTrivia cs) : leading cs = ([], cs) := by
  cases cs with
  | nil => rfl
  | cons c cs =>
      have hc : ¬ isGap c = true := h.gap c rfl
      have hslash : ¬ (c == '/' && cs.head? == some '/') = true := by
        intro hc
        obtain ⟨rfl, hhead⟩ : c = '/' ∧ cs.head? = some '/' := by simpa using hc
        obtain ⟨ds, rfl⟩ := List.head?_eq_some_iff.mp hhead
        exact h.comment ds rfl
      rw [leading, gapFrom, if_neg hc, if_neg hslash]

/-! ## What a token begins with -/

/-- The code points of a list of ranges, one by one. -/
def points (rs : Text.Ranges) : List Nat := rs.flatMap fun r => List.range' r.1 (r.2 + 1 - r.1)

theorem mem_points {rs : Text.Ranges} {n : Nat} (h : rs.has n = true) : n ∈ points rs := by
  induction rs with
  | nil => cases h
  | cons r rs ih =>
      obtain ⟨lo, hi⟩ := r
      rw [Text.Ranges.has_cons] at h
      split at h
      · cases h
      · simp only [points, List.flatMap_cons, List.mem_append, List.mem_range'_1]
        rcases Bool.or_eq_true_iff.mp h with h | h
        · have := of_decide_eq_true h
          exact .inl (by omega)
        · exact .inr (ih h)

theorem beginsWord_of_isBlank {c : Char} (h : Text.isBlank c = true) : beginsWord c = false := by
  have hletters : ∀ n ∈ points Text.blankRanges, Text.alphabeticRanges.has n = false := by
    decide +kernel
  have hc : Text.isAlphabetic c = false := hletters _ (mem_points h)
  have hne : c ≠ '_' := by
    rintro rfl
    exact absurd h (by decide)
  simp [beginsWord, hc, hne]

theorem isBlank_of_isGap {c : Char} (h : isGap c = true) : Text.isBlank c = true := by
  simp only [isGap, Bool.or_eq_true, beq_iff_eq, or_assoc] at h
  rcases h with rfl | rfl | rfl | rfl <;> decide

/-- The first character of a token is neither white space nor a slash. -/
theorem Lexeme.eq_cons {k : TokenKind} {w rest : List Char} (h : Lexeme k w rest) :
    ∃ c cs, w = c :: cs ∧ Text.isBlank c = false ∧ c ≠ '/' := by
  cases h with
  | word h =>
      obtain ⟨c, cs, rfl, hc⟩ := h.holds.eq_cons
      refine ⟨c, cs, rfl, ?_, ?_⟩
      · refine Bool.eq_false_iff.mpr fun hb => ?_
        rcases hc with hc | rfl
        · simp [beginsWord_of_isBlank hb] at hc
        · exact absurd hb (by decide)
      · rintro rfl
        exact absurd hc (by decide +kernel)
  | number h =>
      obtain ⟨c, cs, rfl, hc⟩ := h.holds.eq_cons
      have hmem := isDigit_iff.mp hc
      have hdigits : ∀ n ∈ List.range' 48 10, Text.blankRanges.has n = false := by decide
      refine ⟨c, cs, rfl, hdigits _ hmem, ?_⟩
      rintro rfl
      exact absurd hc (by decide)
  | string h => exact ⟨_, _, rfl, by decide, by decide⟩
  | mark h =>
      cases k <;> simp only [mark?, Option.some.injEq, reduceCtorEq] at h <;>
        obtain rfl := String.ofList_injective (h.symm.trans String.ofList_toList.symm) <;>
        exact ⟨_, _, rfl, by decide, by decide⟩

theorem Lexeme.noTrivia {k : TokenKind} {w rest : List Char} (h : Lexeme k w rest) :
    NoTrivia (w ++ rest) := by
  obtain ⟨c, cs, rfl, hb, hs⟩ := h.eq_cons
  constructor
  · rintro d ⟨⟩ hgap
    simp [isBlank_of_isGap hgap] at hb
  · intro ds heq
    exact hs (List.cons.inj heq).1

theorem leading_lexeme {k : TokenKind} {w rest : List Char} (h : Lexeme k w rest) :
    leading (w ++ rest) = ([], w ++ rest) := leading_eq_self h.noTrivia

/-! ## Trivia does not matter -/

theorem Cut.of_gapFrom {b : Bool} {cs : List Char} {ws : List String}
    (h : Cut (gapFrom b cs).2 ws) : Cut (if b then cs.dropWhile (!endsComment ·) else cs) ws := by
  fun_induction gapFrom b cs with
  | case1 b => cases b <;> simpa using h
  | case2 c cs gap rest hrec ih =>
      rw [hrec] at ih
      have hcut := ih h
      cases hc : endsComment c with
      | true => simpa [hc] using Cut.gap (isGap_of_endsComment hc) (by simpa [hc] using hcut)
      | false => simpa [hc] using hcut
  | case3 c cs hc gap rest hrec ih =>
      rw [hrec] at ih
      exact .gap hc (by simpa using ih h)
  | case4 c cs hc hs gap rest hrec ih =>
      rw [hrec] at ih
      have hcut := ih h
      obtain ⟨rfl, hhead⟩ : c = '/' ∧ cs.head? = some '/' := by simpa using hs
      obtain ⟨cs, rfl⟩ := List.head?_eq_some_iff.mp hhead
      exact .comment (by simpa [endsComment] using hcut)
  | case5 c cs hc hs => exact h

/-- A text is cut as what follows its leading trivia. -/
theorem cut_leading {cs : List Char} {ws : List String} : Cut (leading cs).2 ws ↔ Cut cs ws := by
  constructor
  · exact fun h => Cut.of_gapFrom (b := false) h
  · intro h
    induction h with
    | done => exact .done
    | gap hc _ ih => rwa [leading_gap hc]
    | comment _ ih => rwa [leading_comment]
    | token hw h _ =>
        rw [leading_lexeme hw]
        exact .token hw h

theorem leading_dropWhile_isIndent (cs : List Char) :
    (leading (cs.dropWhile isIndent)).2 = (leading cs).2 := by
  induction cs with
  | nil => rfl
  | cons c cs ih =>
      cases hc : isIndent c with
      | false => simp [hc]
      | true => simpa [hc, leading_gap (isGap_of_isIndent hc)] using ih

theorem leading_after_comment (cs : List Char) :
    (leading (comment cs).2).2 = (leading cs).2 := by
  fun_cases comment cs with
  | case1 cs => exact (leading_comment cs).symm
  | case2 cs _ => rfl

theorem leading_after_lineBreak (cs : List Char) :
    (leading (lineBreak cs).2).2 = (leading cs).2 := by
  fun_cases lineBreak cs with
  | case1 cs => exact (leading_gap rfl cs).symm
  | case2 cs => rw [leading_gap rfl, leading_gap rfl]
  | case3 cs _ _ => rfl

/-- The trivia that a token leaves behind is skipped before the next one. -/
theorem leading_trailing (cs : List Char) : (leading (trailing cs).2).2 = (leading cs).2 := by
  simp only [trailing]
  rw [leading_after_lineBreak, leading_after_comment, leading_dropWhile_isIndent]

theorem cut_trailing {cs : List Char} {ws : List String} :
    Cut (trailing cs).2 ws ↔ Cut cs ws := by
  rw [← cut_leading, leading_trailing, cut_leading]

/-! ## The scanner cuts -/

theorem length_leading_le (cs : List Char) : (leading cs).2.length ≤ cs.length := by
  have happ := congrArg List.length (leading_append cs)
  rw [List.length_append] at happ
  omega

theorem leading_gapFrom (b : Bool) (cs : List Char) :
    (leading (gapFrom b cs).2).2 = (gapFrom b cs).2 := by
  fun_induction gapFrom b cs with
  | case1 => rfl
  | case2 c cs gap rest hrec ih => simpa [hrec] using ih
  | case3 c cs hc gap rest hrec ih => simpa [hrec] using ih
  | case4 c cs hc hs gap rest hrec ih => simpa [hrec] using ih
  | case5 c cs hc hs => simp [leading, gapFrom, hc, hs]

theorem leading_leading (cs : List Char) : (leading (leading cs).2).2 = (leading cs).2 :=
  leading_gapFrom false cs

/-- Where no trivia stands, a text is cut at its first token. -/
theorem Cut.of_leading {cs : List Char} {ws : List String} (h : Cut cs ws)
    (hl : (leading cs).2 = cs) : (cs = [] ∧ ws = []) ∨ ∃ k w rest us,
      Lexeme k w rest ∧ cs = w ++ rest ∧ ws = String.ofList w :: us ∧ Cut rest us := by
  cases h with
  | done => exact .inl ⟨rfl, rfl⟩
  | @gap c cs _ hc h =>
      rw [leading_gap hc] at hl
      have hle := length_leading_le cs
      rw [hl, List.length_cons] at hle
      omega
  | @comment cs _ h =>
      rw [leading_comment] at hl
      have hle := length_leading_le (cs.dropWhile (!endsComment ·))
      have hdrop := (List.dropWhile_sublist (!endsComment ·) (l := cs)).length_le
      rw [hl, List.length_cons, List.length_cons] at hle
      omega
  | token hw h => exact .inr ⟨_, _, _, _, hw, rfl, rfl, h⟩

theorem token?_eq_none {cs : List Char} : token? cs = none ↔ lexeme? (leading cs).2 = none := by
  unfold token?
  split <;> simp_all

theorem token?_eq_some {cs rest : List Char} {t : Token} :
    token? cs = some (t, rest) ↔ ∃ k w r, lexeme? (leading cs).2 = some (k, w, r) ∧
      t = ⟨k, String.ofList (leading cs).1, String.ofList w, String.ofList (trailing r).1⟩ ∧
      rest = (trailing r).2 := by
  unfold token?
  split
  · simp_all
  · next k w r h =>
    rw [h]
    constructor
    · rintro ⟨⟩
      exact ⟨k, w, r, rfl, rfl, rfl⟩
    · rintro ⟨_, _, _, ⟨⟩, rfl, rfl⟩
      rfl

/-- A token is the text of a lexeme before what its trivia stops at. -/
theorem lexeme_of_token? {cs rest : List Char} {t : Token} (h : token? cs = some (t, rest)) :
    ∃ r, Lexeme t.kind t.text.toList r ∧ (leading cs).2 = t.text.toList ++ r ∧
      (trailing r).2 = rest := by
  obtain ⟨k, w, r, hl, rfl, rfl⟩ := token?_eq_some.mp h
  obtain ⟨hsplit, hw⟩ := lexeme?_eq_some.mp hl
  exact ⟨r, by simpa using hw, by simpa using hsplit, rfl⟩

theorem length_lt_of_token? {cs rest : List Char} {t : Token} (h : token? cs = some (t, rest)) :
    rest.length < cs.length := by
  obtain ⟨r, hw, hl, rfl⟩ := lexeme_of_token? h
  obtain ⟨c, ds, heq, -, -⟩ := hw.eq_cons
  have hle := length_leading_le cs
  have htrail := congrArg List.length (trailing_append r)
  rw [hl, heq] at hle
  simp only [List.length_append, List.length_cons] at hle htrail
  omega

/-- The cut of a text goes token by token, and where no token begins it is over. -/
theorem cut_step {cs : List Char} {ws : List String} : Cut cs ws ↔
    match token? cs with
    | none => (leading cs).2 = [] ∧ ws = []
    | some (t, rest) => ∃ us, ws = t.text :: us ∧ Cut rest us := by
  have hidem := leading_leading cs
  split
  · next h =>
    rw [token?_eq_none] at h
    constructor
    · intro hc
      rcases (cut_leading.mpr hc).of_leading hidem with hnil | ⟨k, w, rest, us, hw, hl, -, -⟩
      · exact hnil
      · rw [lexeme?_eq_some.mpr ⟨hl, hw⟩] at h
        cases h
    · rintro ⟨hl, rfl⟩
      rw [← cut_leading, hl]
      exact .done
  · next t rest h =>
    obtain ⟨k, w, r, hlex, rfl, rfl⟩ := token?_eq_some.mp h
    constructor
    · intro hc
      rcases (cut_leading.mpr hc).of_leading hidem with ⟨hnil, -⟩ | ⟨k', w', r', us, hw, hl, rfl, hr⟩
      · rw [hnil] at hlex
        cases hlex
      · rw [lexeme?_eq_some.mpr ⟨hl, hw⟩] at hlex
        cases hlex
        exact ⟨us, rfl, cut_trailing.mpr hr⟩
    · rintro ⟨us, rfl, hr⟩
      obtain ⟨hl, hw⟩ := lexeme?_eq_some.mp hlex
      rw [← cut_leading, hl]
      exact .token hw (cut_trailing.mp hr)

theorem cut_iff {fuel : Nat} {cs : List Char} (h : cs.length ≤ fuel) {ws : List String} :
    Cut cs ws ↔ (leading (cut fuel cs).2).2 = [] ∧ ws = (cut fuel cs).1.map Token.text := by
  induction fuel generalizing cs ws with
  | zero =>
      obtain rfl : cs = [] := List.eq_nil_of_length_eq_zero (Nat.le_zero.mp h)
      rw [cut_step]
      rfl
  | succ fuel ih =>
      rw [cut_step, cut]
      cases ht : token? cs with
      | none => simp
      | some p =>
          obtain ⟨t, rest⟩ := p
          have hlt := length_lt_of_token? ht
          have hrest := @ih rest (by omega)
          constructor
          · rintro ⟨us, rfl, hus⟩
            obtain ⟨hl, rfl⟩ := hrest.mp hus
            exact ⟨hl, rfl⟩
          · rintro ⟨hl, rfl⟩
            exact ⟨_, rfl, hrest.mpr ⟨hl, rfl⟩⟩

theorem leading_eq_nil {cs : List Char} : leading cs = (cs, []) ↔ (leading cs).2 = [] := by
  constructor
  · intro h
    rw [h]
  · intro h
    have happ := leading_append cs
    rw [h, List.append_nil] at happ
    exact Prod.ext happ h

/-- A text is cut into the texts of the tokens that the scanner gives, when only trivia is left
after them. -/
theorem cut_iff_tokens {cs : List Char} {ws : List String} : Cut cs ws ↔
    ∃ ts trivia, tokens cs = (ts, trivia) ∧ leading trivia = (trivia, []) ∧
      ws = ts.map Token.text := by
  rw [cut_iff (Nat.le_refl _)]
  constructor
  · rintro ⟨hl, rfl⟩
    exact ⟨_, _, rfl, leading_eq_nil.mpr hl, rfl⟩
  · rintro ⟨ts, trivia, ht, hl, rfl⟩
    rw [← tokens, ht]
    exact ⟨leading_eq_nil.mp hl, rfl⟩

/-! ## The kind of a token -/

end CallFill.Lexical

namespace CallFill

/-- The kind of the token is the kind of its text. -/
def Token.Spelled (t : Token) : Prop := Lexical.Lexeme t.kind t.text.toList []

theorem Token.Spelled.text_ne_empty {t : Token} (h : t.Spelled) : t.text ≠ "" := by
  obtain ⟨c, cs, htext, -⟩ := Lexical.Lexeme.eq_cons h
  simp [← String.toList_inj, htext]

namespace Lexical

theorem spelled_of_mem_cut {fuel : Nat} {cs : List Char} :
    ∀ t ∈ (cut fuel cs).1, t.Spelled := by
  induction fuel generalizing cs with
  | zero => simp [cut]
  | succ fuel ih =>
      rw [cut]
      cases ht : token? cs with
      | none => simp
      | some p =>
          obtain ⟨t, rest⟩ := p
          obtain ⟨r, hw, -, -⟩ := lexeme_of_token? ht
          intro u hu
          rcases List.mem_cons.mp hu with rfl | hu
          · exact hw.nil
          · exact ih u hu

theorem spelled_of_tokens {cs rest : List Char} {ts : List Token} (h : tokens cs = (ts, rest)) :
    ∀ t ∈ ts, t.Spelled := by
  have hcut : ∀ t ∈ (tokens cs).1, t.Spelled := spelled_of_mem_cut
  rwa [h] at hcut

end Lexical

end CallFill
