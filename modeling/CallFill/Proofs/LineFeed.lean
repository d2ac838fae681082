import CallFill.Proofs.Dividers
import CallFill.Proofs.Settling

/-!
# Before a line feed

A line feed ends words, numbers and comments as the end of the text does, and no string goes on
behind it that had no end before.  So a text with more text behind a line feed is cut into the
tokens of the one and of the other.  The tokens in front of the line feed keep their trivia, but
for the last one: the rest of its line may belong to it now.
-/

namespace CallFill.Lexical

/-! ## Trivia -/

section

variable {cs u x : List Char}

theorem run_newline {p : Char → Bool} (hp : p '\n' = false) (h : run p cs = (u, x))
    (y : List Char) : run p (cs ++ '\n' :: y) = (u, x ++ '\n' :: y) := by
  obtain ⟨rfl, hu, hx⟩ := run_eq.mp h
  refine run_eq.mpr ⟨List.append_assoc _ _ _, hu, fun c hc => ?_⟩
  cases x with
  | nil =>
      obtain rfl : '\n' = c := by simpa using hc
      simp [hp]
  | cons d x => exact hx c hc

theorem comment_newline (h : comment cs = (u, x)) (y : List Char) :
    comment (cs ++ '\n' :: y) = (u, x ++ '\n' :: y) := by
  cases u with
  | nil =>
      obtain rfl : x = cs := by simpa [h] using comment_append cs
      refine comment_eq_nil fun ds hds => ?_
      rcases x with _ | ⟨c, _ | ⟨d, x⟩⟩
      · simp at hds
      · simp at hds
      · obtain ⟨rfl, rfl, -⟩ : c = '/' ∧ d = '/' ∧ _ := by simpa using hds
        simp [comment] at h
  | cons c u =>
      obtain ⟨ns, ds, rfl, rfl, rfl, hrun⟩ := eq_of_comment h
      have hrun' := run_newline (p := (!endsComment ·)) rfl hrun y
      simp only [run, Prod.mk.injEq] at hrun'
      rw [List.cons_append, List.cons_append, comment, hrun'.1, hrun'.2]

/-- A line feed behind a text makes a line break with all that is left of it, or with nothing. -/
theorem lineBreak_newline (h : lineBreak cs = (u, x)) (y : List Char) :
    lineBreak (cs ++ '\n' :: y) = (u, x ++ '\n' :: y) ∨
      (leading x).2 = [] ∧ lineBreak (cs ++ '\n' :: y) = (u ++ x ++ ['\n'], y) := by
  revert h
  fun_cases lineBreak cs with
  | case1 cs =>
      rintro ⟨⟩
      exact .inl rfl
  | case2 cs =>
      rintro ⟨⟩
      exact .inl rfl
  | case3 cs hn hr =>
      rintro ⟨⟩
      rcases cs with _ | ⟨c, _ | ⟨d, cs⟩⟩
      · exact .inr ⟨rfl, rfl⟩
      · by_cases hc : c = '\r'
        · obtain rfl := hc
          exact .inr ⟨rfl, rfl⟩
        · exact .inl (lineBreak_eq_nil (by simpa using hn []) (by simp [hc]))
      · refine .inl (lineBreak_eq_nil ?_ ?_)
        · rintro ds hds
          exact hn (d :: cs) (by simp_all)
        · rintro ds hds
          exact hr cs (by simp_all)

/-- A line feed behind a text is not in its trailing trivia, or all that was left is in it too. -/
theorem trailing_newline (h : trailing cs = (u, x)) (y : List Char) :
    trailing (cs ++ '\n' :: y) = (u, x ++ '\n' :: y) ∨
      (leading x).2 = [] ∧ trailing (cs ++ '\n' :: y) = (u ++ x ++ ['\n'], y) := by
  rw [trailing_eq_andThen] at h ⊢
  obtain ⟨a, b, rfl, ha, hb⟩ := (andThen_eq splits_lineBreak).mp h
  obtain ⟨i, n, rfl, hi, hn⟩ := (andThen_eq splits_comment).mp ha
  have hnote : andThen (run isIndent) comment (cs ++ '\n' :: y) = (i ++ n, b ++ x ++ '\n' :: y) := by
    refine (andThen_eq splits_comment).mpr ⟨i, n, rfl, ?_, ?_⟩
    · simpa using run_newline rfl hi y
    · simpa using comment_newline hn y
  rcases lineBreak_newline hb y with hb | ⟨hx, hb⟩
  · refine .inl ((andThen_eq splits_lineBreak).mpr ⟨i ++ n, b, rfl, ?_, ?_⟩)
    · simpa using hnote
    · simpa using hb
  · refine .inr ⟨hx, (andThen_eq splits_lineBreak).mpr ⟨i ++ n, b ++ x ++ ['\n'], ?_, ?_, ?_⟩⟩
    · simp
    · simpa using hnote
    · simpa using hb

/-- Trivia up to the end of a text goes on behind a line feed. -/
theorem gapFrom_newline {b : Bool} (h : gapFrom b cs = (cs, [])) (y : List Char) :
    gapFrom b (cs ++ '\n' :: y) = (cs ++ '\n' :: (leading y).1, (leading y).2) := by
  induction cs generalizing b with
  | nil => cases b <;> rfl
  | cons c cs ih =>
      rw [List.cons_append]
      cases b with
      | true =>
          obtain hrec : gapFrom (!endsComment c) cs = (cs, []) := by
            simpa [gapFrom, Prod.ext_iff] using h
          simp [gapFrom, ih hrec]
      | false =>
          have hhead : ((cs ++ '\n' :: y).head? == some '/') = (cs.head? == some '/') := by
            cases cs <;> rfl
          rw [gapFrom] at h ⊢
          rw [hhead]
          split at h
          · next hg =>
            obtain hrec : gapFrom false cs = (cs, []) := by simpa [Prod.ext_iff] using h
            simp [hg, ih hrec]
          · next hg =>
            split at h
            · next hs =>
              obtain hrec : gapFrom true cs = (cs, []) := by simpa [Prod.ext_iff] using h
              rw [if_neg hg, if_pos hs, ih hrec]
              rfl
            · cases h

end

/-! ## Texts of tokens -/

section

variable {k : TokenKind} {w x y z : List Char} {ws : List String}

theorem IsStringTail.getLast? (h : IsStringTail w) : w.getLast? = some '"' := by
  induction h with
  | close => rfl
  | escape c _ ih => simp [List.getLast?_cons, ih]
  | plain _ _ ih => simp [List.getLast?_cons, ih]

/-- A token with a line feed in it is a string. -/
theorem Lexeme.getLast?_of_newline (h : Lexeme k w z) (hn : '\n' ∈ w) : w.getLast? = some '"' := by
  have hdivides : Divides '\n' := divides_of_isGap rfl
  cases h with
  | word h => exact absurd hn (hdivides.word _ h.holds)
  | number h => exact absurd hn (hdivides.number _ h.holds)
  | string h => simp [List.getLast?_cons, h.getLast?]
  | mark h =>
      cases k <;> simp only [mark?, Option.some.injEq, reduceCtorEq] at h <;>
        obtain rfl := String.ofList_injective (h.symm.trans String.ofList_toList.symm) <;>
        exact absurd hn (by decide)

/-- No token that begins before a line feed goes on behind it, if no quote stands there. -/
theorem Lexeme.before_newline (h : Lexeme k w z) (hy : '"' ∉ y) (heq : w ++ z = x ++ '\n' :: y) :
    ∃ x', x = w ++ x' ∧ z = x' ++ '\n' :: y := by
  rcases List.append_eq_append_iff.mp heq with ⟨m, rfl, hz⟩ | ⟨_ | ⟨c, m⟩, rfl, hm⟩
  · exact ⟨m, rfl, hz⟩
  · exact ⟨[], by simp, hm.symm⟩
  · -- only a string has the line feed in it, and its last quote would stand behind
    obtain ⟨rfl, rfl⟩ := List.cons.inj hm
    have hlast : ('\n' :: m).getLast? = some '"' := by
      simpa [List.getLast?_append] using h.getLast?_of_newline (by simp)
    have hmem : '"' ∈ m := by simpa using List.mem_of_getLast? hlast
    exact absurd (List.mem_append_left z hmem) hy

/-- A text with a line feed in it is cut before and behind it. -/
theorem Cut.split_newline (h : Cut z ws) (hy : '"' ∉ y) (hz : z = x ++ '\n' :: y) :
    ∃ us vs, ws = us ++ vs ∧ Cut x us ∧ Cut y vs := by
  induction h generalizing x with
  | done => simp at hz
  | @gap c cs ws hc h ih =>
      cases x with
      | nil =>
          obtain ⟨-, rfl⟩ := List.cons.inj hz
          exact ⟨[], ws, rfl, .done, h⟩
      | cons d x =>
          obtain ⟨rfl, rfl⟩ := List.cons.inj hz
          obtain ⟨us, vs, rfl, hus, hvs⟩ := ih rfl
          exact ⟨us, vs, rfl, .gap hc hus, hvs⟩
  | @comment cs ws h ih =>
      rcases x with _ | ⟨a, _ | ⟨b, x⟩⟩
      · simp at hz
      · simp at hz
      · obtain ⟨rfl, rfl, rfl⟩ : '/' = a ∧ '/' = b ∧ cs = x ++ '\n' :: y := by simpa using hz
        have hrest : run (!endsComment ·) (x ++ '\n' :: y) =
            (_, x.dropWhile (!endsComment ·) ++ '\n' :: y) := run_newline rfl rfl y
        obtain ⟨us, vs, rfl, hus, hvs⟩ := ih (congrArg Prod.snd hrest)
        exact ⟨us, vs, rfl, .comment hus, hvs⟩
  | token hw h ih =>
      obtain ⟨x, rfl, rfl⟩ := hw.before_newline hy hz
      obtain ⟨us, vs, rfl, hus, hvs⟩ := ih rfl
      exact ⟨_ :: us, vs, rfl, .token hw.of_append hus, hvs⟩

end

/-! ## Tokens -/

section

variable {t : Token} {ts : List Token} {x : List Char}

/-- A token with another one behind it is the same with more text behind a line feed. -/
theorem Settles.newline (h : Settles t x) (hx : (leading x).2 ≠ []) (y : List Char) :
    Settles t (x ++ '\n' :: y) := by
  obtain ⟨hl, hw, ht⟩ := settles_iff.mp h
  refine settles_iff.mpr ⟨leading_congr hw hl _, ?_, ?_⟩
  · rw [← List.append_assoc]
    exact hw.append_cons (divides_of_isGap rfl) y
  · rw [← List.append_assoc]
    exact (trailing_newline ht y).resolve_right fun h => hx h.1

theorem leading_wholeAll_ne_nil (h : Settled ts x) (hx : (leading x).2 ≠ []) :
    (leading ((Token.wholeAll ts).toList ++ x)).2 ≠ [] := by
  cases ts with
  | nil => exact hx
  | cons t ts =>
      rw [Token.wholeAll_cons, String.toList_append, List.append_assoc]
      exact (settled_cons.mp h).1.leading_ne_nil

theorem Settled.newline (h : Settled ts x) (hx : (leading x).2 ≠ []) (y : List Char) :
    Settled ts (x ++ '\n' :: y) := by
  induction ts with
  | nil => trivial
  | cons t ts ih =>
      obtain ⟨ht, hts⟩ := settled_cons.mp h
      refine settled_cons.mpr ⟨?_, ih hts⟩
      rw [← List.append_assoc]
      exact ht.newline (leading_wholeAll_ne_nil hts hx) y

/-- The trivia behind the last token and a line feed go to it or to the token behind them. -/
theorem Settles.last_newline (h : Settles t x) (hx : leading x = (x, [])) {k : TokenKind}
    {w z : List Char} (hw : Lexeme k w z) : ∃ s l : String, s.toList ++ l.toList = x ++ ['\n'] ∧
      Settles (t.appendTrailing s) (l.toList ++ (w ++ z)) ∧
      leading (l.toList ++ (w ++ z)) = (l.toList, w ++ z) := by
  obtain ⟨hl, hlex, ht⟩ := settles_iff.mp h
  have hmore := hlex.append_cons (divides_of_isGap (c := '\n') rfl) (w ++ z)
  -- the line feed goes to the next token with what was left, or ends the line of this one
  rcases trailing_newline ht (w ++ z) with ht | ⟨-, ht⟩
  · refine ⟨"", String.ofList (x ++ ['\n']), by simp, ?_, ?_⟩
    · refine settles_iff.mpr ⟨leading_congr hlex hl _, ?_, ?_⟩
      · simpa [Token.appendTrailing] using hmore
      · simpa [Token.appendTrailing] using ht
    · have hgap := gapFrom_newline hx (w ++ z)
      rw [leading_lexeme hw] at hgap
      simpa [leading] using hgap
  · refine ⟨String.ofList (x ++ ['\n']), "", by simp, ?_, by simpa using leading_lexeme hw⟩
    refine settles_iff.mpr ⟨leading_congr hlex hl _, ?_, ?_⟩
    · simpa [Token.appendTrailing] using hmore
    · simpa [Token.appendTrailing] using ht

/-- A token on a line of its own behind a text is cut off by itself, and the other tokens stay but
for the trivia behind the last one. -/
theorem tokens_newline {cs : List Char} {init : List Token} {last : Token}
    (ht : tokens cs = (init ++ [last], x)) (hx : leading x = (x, [])) {k : TokenKind} {w : String}
    (hw : Lexeme k w.toList []) : ∃ s l, tokens (cs ++ '\n' :: w.toList) =
      (init ++ [last.appendTrailing s, ⟨k, l, w, ""⟩], []) := by
  obtain ⟨rfl, hsettled, -⟩ := tokens_eq.mp ht
  obtain ⟨hinit, hlast⟩ := settled_append.mp hsettled
  have hlast : Settles last x := by simpa using hlast
  obtain ⟨s, l, hsl, hlast', hl⟩ := hlast.last_newline hx hw
  have hbehind : s.toList ++ (l.toList ++ w.toList) = x ++ '\n' :: w.toList := by
    rw [← List.append_assoc, hsl]
    simp
  have hwhole : Token.whole ⟨k, l, w, ""⟩ = l ++ w := by simp [Token.whole]
  refine ⟨s, l, tokens_eq.mpr ⟨?_, settled_append.mpr ⟨?_, ?_, ?_, trivial⟩, rfl⟩⟩
  · simp [hwhole, hbehind]
  · have hmore := hinit.newline (by simpa using hlast.leading_ne_nil) w.toList
    simpa [hwhole, hbehind] using hmore
  · simpa [hwhole] using hlast'
  · exact settles_iff.mpr ⟨by simpa using hl, by simpa using hw, rfl⟩

end

end CallFill.Lexical
