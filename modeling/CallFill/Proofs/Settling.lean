import CallFill.Proofs.Cutting
import CallFill.Proofs.Trailing

/-!
# Tokens and what follows them

How a token is cut off the front of a text depends on little of what stands behind it.  It is cut
the same way before two texts that agree up to a bracket or a line break.  So a run of tokens that
a text was cut into stays as it is when the text behind it is exchanged for another one of that
sort.
-/

namespace CallFill.Lexical

/-! ## Texts that no token tells apart -/

/-- Marks that end every word, every number and all trivia. -/
def brackets : List Char := ['(', ')', '>']

theorem forall_brackets {p : Char → Prop} (ho : p '(') (hc : p ')') (ha : p '>') :
    ∀ c ∈ brackets, p c := by
  intro c hmem
  obtain rfl | rfl | rfl : c = '(' ∨ c = ')' ∨ c = '>' := by simpa [brackets] using hmem
  · exact ho
  · exact hc
  · exact ha

/-- The two texts agree up to a bracket in each of them, up to a bracket where the second ends or
up to a line break in both. -/
inductive Alike : List Char → List Char → Prop
  | bracket {c d : Char} (hc : c ∈ brackets) (hd : d ∈ brackets) (x y : List Char) :
      Alike (c :: x) (d :: y)
  | stop {c : Char} (hc : c ∈ brackets) (x : List Char) : Alike (c :: x) []
  | newline (x y : List Char) : Alike ('\n' :: x) ('\n' :: y)
  | cons (c : Char) {x y : List Char} (h : Alike x y) : Alike (c :: x) (c :: y)

section

variable {x y : List Char}

theorem Alike.append (u : List Char) (h : Alike x y) : Alike (u ++ x) (u ++ y) := by
  induction u with
  | nil => exact h
  | cons c u ih => exact .cons c ih

/-- A class that has all brackets or none does not tell the first characters apart. -/
theorem Alike.head? {p : Char → Bool} (h : Alike x y) (hp : ∀ c ∈ brackets, p c = p '(')
    (hx : ∀ c ∈ x.head?, ¬ p c = true) : ∀ c ∈ y.head?, ¬ p c = true := by
  cases h with
  | bracket hc hd => simpa [hp _ hc, hp _ hd] using hx
  | stop => simp
  | newline => simpa using hx
  | cons => simpa using hx

end

/-! ## Splitting a text -/

/-- A function that cuts a text in two, in the same place before all texts that are alike. -/
structure Splits (f : List Char → List Char × List Char) : Prop where
  append : ∀ cs, (f cs).1 ++ (f cs).2 = cs
  alike : ∀ {u x y : List Char}, f (u ++ x) = (u, x) → Alike x y → f (u ++ y) = (u, y)

/-- Cuts with `f` and then what is left with `g`. -/
def andThen (f g : List Char → List Char × List Char) (cs : List Char) :
    List Char × List Char :=
  ((f cs).1 ++ (g (f cs).2).1, (g (f cs).2).2)

section

variable {f g : List Char → List Char × List Char}

theorem andThen_eq (hg : Splits g) {cs u x : List Char} : andThen f g cs = (u, x) ↔
    ∃ a b, u = a ++ b ∧ f cs = (a, b ++ x) ∧ g (b ++ x) = (b, x) := by
  constructor
  · intro h
    rcases hf : f cs with ⟨a, r⟩
    rcases hr : g r with ⟨b, s⟩
    have happ := hg.append r
    simp only [andThen, hf, hr, Prod.mk.injEq] at h happ
    obtain ⟨rfl, rfl⟩ := h
    exact ⟨a, b, rfl, by rw [happ], by rw [happ, hr]⟩
  · rintro ⟨a, b, rfl, hf, hgb⟩
    rw [andThen, hf, hgb]

theorem Splits.andThen (hf : Splits f) (hg : Splits g) : Splits (andThen f g) where
  append cs := by rw [Lexical.andThen, List.append_assoc, hg.append, hf.append]
  alike h hxy := by
    obtain ⟨a, b, rfl, hfab, hgb⟩ := (andThen_eq hg).mp h
    rw [List.append_assoc] at hfab ⊢
    exact (andThen_eq hg).mpr ⟨a, b, rfl, hf.alike hfab (hxy.append b), hg.alike hgb hxy⟩

end

/-- The longest run of characters of a class. -/
def run (p : Char → Bool) (cs : List Char) : List Char × List Char :=
  (cs.takeWhile p, cs.dropWhile p)

theorem run_eq {p : Char → Bool} {cs u x : List Char} : run p cs = (u, x) ↔
    cs = u ++ x ∧ (∀ c ∈ u, p c = true) ∧ ∀ c ∈ x.head?, ¬ p c = true := by
  constructor
  · intro h
    obtain ⟨rfl, rfl⟩ := Prod.mk.inj h
    have hstop := List.head?_dropWhile_not p cs
    refine ⟨List.takeWhile_append_dropWhile.symm, fun c hc => of_mem_takeWhile hc,
      fun c hc => ?_⟩
    rw [Option.mem_def.mp hc] at hstop
    simpa using hstop
  · rintro ⟨rfl, hu, hx⟩
    exact Prod.ext (span_stop hu x hx).1 (span_stop hu x hx).2

theorem splits_run {p : Char → Bool} (hp : ∀ c ∈ brackets, p c = p '(') : Splits (run p) where
  append _ := List.takeWhile_append_dropWhile
  alike h hxy := by
    obtain ⟨-, hu, hx⟩ := run_eq.mp h
    exact run_eq.mpr ⟨rfl, hu, hxy.head? hp hx⟩

/-- No bracket takes part in a fraction, a comment or a line break. -/
theorem of_mem_brackets {c : Char} (hc : c ∈ brackets) :
    c ≠ '.' ∧ c ≠ '/' ∧ c ≠ '\r' ∧ c ≠ '\n' ∧ c.isDigit = false := by
  revert c
  apply forall_brackets <;> decide

theorem eq_of_fraction {cs u x : List Char} {c : Char} (h : fraction cs = (c :: u, x)) :
    ∃ d fs ds, c = '.' ∧ u = d :: fs ∧ cs = '.' :: d :: ds ∧ d.isDigit = true ∧
      run Char.isDigit ds = (fs, x) := by
  revert h
  fun_cases fraction cs with
  | case1 d ds hd =>
      rintro ⟨⟩
      exact ⟨d, _, ds, rfl, rfl, rfl, hd, rfl⟩
  | case2 => simp
  | case3 => simp

theorem splits_fraction : Splits fraction where
  append := fraction_append
  alike {u x y} h hxy := by
    cases u with
    | nil =>
        cases hxy with
        | bracket _ hd => exact fraction_eq_nil (by simpa using (of_mem_brackets hd).1)
        | stop => rfl
        | newline => exact fraction_eq_nil (by simp)
        | @cons c x y hxy =>
            by_cases hc : c = '.'
            · obtain rfl := hc
              cases hxy with
              | bracket _ hd => simp [fraction, (of_mem_brackets hd).2.2.2.2]
              | stop => rfl
              | newline => simp [fraction, show Char.isDigit '\n' = false from rfl]
              | cons d _ =>
                  have hd : d.isDigit = false := by
                    refine Bool.eq_false_iff.mpr fun hd => ?_
                    simp [fraction_cons hd] at h
                  simp [fraction, hd]
            · exact fraction_eq_nil (by simpa using hc)
    | cons c u =>
        obtain ⟨d, fs, ds, rfl, rfl, hcs, hd, hrun⟩ := eq_of_fraction h
        obtain rfl : fs ++ x = ds := by simpa using hcs
        have hdigits : Splits (run Char.isDigit) := splits_run (forall_brackets rfl rfl rfl)
        have hrun' := hdigits.alike hrun hxy
        simp only [run, Prod.mk.injEq] at hrun'
        rw [List.cons_append, List.cons_append, fraction_cons hd, hrun'.1, hrun'.2]

theorem comment_eq_nil {cs : List Char} (h : ∀ ds, cs ≠ '/' :: '/' :: ds) :
    comment cs = ([], cs) := by
  fun_cases comment cs with
  | case1 ds => exact absurd rfl (h ds)
  | case2 => rfl

theorem eq_of_comment {cs u x : List Char} {c : Char} (h : comment cs = (c :: u, x)) :
    ∃ ns ds, c = '/' ∧ u = '/' :: ns ∧ cs = '/' :: '/' :: ds ∧
      run (!endsComment ·) ds = (ns, x) := by
  revert h
  fun_cases comment cs with
  | case1 ds =>
      rintro ⟨⟩
      exact ⟨_, ds, rfl, rfl, rfl, rfl⟩
  | case2 => simp

theorem splits_comment : Splits comment where
  append := comment_append
  alike {u x y} h hxy := by
    cases u with
    | nil =>
        refine comment_eq_nil ?_
        rintro ds rfl
        cases hxy with
        | bracket _ hd => exact (of_mem_brackets hd).2.1 rfl
        | cons _ hxy =>
            cases hxy with
            | bracket _ hd => exact (of_mem_brackets hd).2.1 rfl
            | cons _ _ => simp [comment] at h
    | cons c u =>
        obtain ⟨ns, ds, rfl, rfl, hcs, hrun⟩ := eq_of_comment h
        obtain rfl : ns ++ x = ds := by simpa using hcs
        have hnote : Splits (run (!endsComment ·)) := splits_run (forall_brackets rfl rfl rfl)
        have hrun' := hnote.alike hrun hxy
        simp only [run, Prod.mk.injEq] at hrun'
        rw [List.cons_append, List.cons_append, comment, hrun'.1, hrun'.2]

theorem lineBreak_eq_nil {cs : List Char} (hn : ∀ ds, cs ≠ '\n' :: ds)
    (hr : ∀ ds, cs ≠ '\r' :: '\n' :: ds) : lineBreak cs = ([], cs) := by
  fun_cases lineBreak cs with
  | case1 ds => exact absurd rfl (hn ds)
  | case2 ds => exact absurd rfl (hr ds)
  | case3 => rfl

theorem eq_of_lineBreak {cs u x : List Char} (h : lineBreak cs = (u, x)) :
    u = [] ∨ u = ['\n'] ∨ u = ['\r', '\n'] := by
  revert h
  fun_cases lineBreak cs <;> rintro ⟨⟩ <;> simp

/-- A line break is one whatever follows it. -/
theorem lineBreak_append_of_ne {u x : List Char} (h : lineBreak (u ++ x) = (u, x)) (hu : u ≠ [])
    (y : List Char) : (∃ v, u = v ++ ['\n']) ∧ lineBreak (u ++ y) = (u, y) := by
  rcases eq_of_lineBreak h with rfl | rfl | rfl
  · exact absurd rfl hu
  · exact ⟨⟨[], rfl⟩, rfl⟩
  · exact ⟨⟨['\r'], rfl⟩, rfl⟩

theorem splits_lineBreak : Splits lineBreak where
  append := lineBreak_append
  alike {u x y} h hxy := by
    by_cases hu : u = []
    · obtain rfl := hu
      refine lineBreak_eq_nil ?_ ?_
      · rintro ds rfl
        cases hxy with
        | bracket _ hd => exact (of_mem_brackets hd).2.2.2.1 rfl
        | newline => cases h
        | cons => cases h
      · rintro ds rfl
        cases hxy with
        | bracket _ hd => exact (of_mem_brackets hd).2.2.1 rfl
        | cons _ hxy =>
            cases hxy with
            | bracket _ hd => exact (of_mem_brackets hd).2.2.2.1 rfl
            | newline => cases h
            | cons => cases h
    · exact (lineBreak_append_of_ne h hu y).2

theorem number_eq_andThen :
    number = andThen (andThen (run Char.isDigit) fraction) (run isNumberSuffix) := rfl

theorem trailing_eq_andThen :
    trailing = andThen (andThen (run isIndent) comment) lineBreak := rfl

theorem splits_number : Splits number := by
  have hdigits : Splits (run Char.isDigit) := splits_run (forall_brackets rfl rfl rfl)
  have hsuffix : Splits (run isNumberSuffix) := splits_run (forall_brackets rfl rfl rfl)
  rw [number_eq_andThen]
  exact (hdigits.andThen splits_fraction).andThen hsuffix

/-- The part of trailing trivia before the line break. -/
theorem splits_note : Splits (andThen (run isIndent) comment) :=
  (splits_run (forall_brackets rfl rfl rfl)).andThen splits_comment

theorem splits_trailing : Splits trailing := by
  rw [trailing_eq_andThen]
  exact splits_note.andThen splits_lineBreak

/-! ## Where no trivia stands -/

theorem trailing_eq_self {cs : List Char} (h : NoTrivia cs) : trailing cs = ([], cs) := by
  have hindent : run isIndent cs = ([], cs) :=
    run_eq.mpr ⟨rfl, by simp, fun c hc hindent => h.gap c hc (isGap_of_isIndent hindent)⟩
  have hbreak : lineBreak cs = ([], cs) := by
    refine lineBreak_eq_nil ?_ ?_
    · rintro ds rfl
      exact h.gap '\n' rfl rfl
    · rintro ds rfl
      exact h.gap '\r' rfl rfl
  rw [trailing_eq_andThen]
  refine (andThen_eq splits_lineBreak).mpr ⟨[], [], rfl, ?_, hbreak⟩
  exact (andThen_eq splits_comment).mpr ⟨[], [], rfl, hindent, comment_eq_nil h.comment⟩

/-! ## Before other texts -/

/-- A word is the longest one when the next character does not continue it. -/
theorem longest_isWord {w x : List Char} : Longest IsWord w x ↔
    IsWord w ∧ ∀ c ∈ x.head?, ¬ continuesWord c = true := by
  constructor
  · intro h
    refine ⟨h.holds, fun c hc hcont => ?_⟩
    obtain ⟨x, rfl⟩ := List.head?_eq_some_iff.mp hc
    have hmore {cs : List Char} (hcs : ∀ d ∈ cs, continuesWord d = true) :
        ∀ d ∈ cs ++ [c], continuesWord d = true := by
      intro d hd
      rcases List.mem_append.mp hd with hd | hd
      · exact hcs d hd
      · rwa [List.mem_singleton.mp hd]
    have hword : IsWord (w ++ [c]) := by
      cases h.holds with
      | plain hb hcs => exact .plain hb (hmore hcs)
      | verbatim hb hcs => exact .verbatim hb (hmore hcs)
    have hle := h.longest _ x hword (by simp)
    rw [List.length_append, List.length_singleton] at hle
    omega
  · rintro ⟨hw, hx⟩
    have hword : word? (w ++ x) = some (w, x) := by
      cases hw with
      | plain hb hcs =>
          obtain ⟨htake, hdrop⟩ := span_stop hcs x hx
          simp [word?, hb, htake, hdrop]
      | verbatim hb hcs =>
          obtain ⟨htake, hdrop⟩ := span_stop hcs x hx
          simp [word?, hb, beginsWord_at, htake, hdrop]
    exact word?_longest hword

section

variable {x y : List Char}

theorem Lexeme.alike {k : TokenKind} {w : List Char} (h : Lexeme k w x) (hxy : Alike x y) :
    Lexeme k w y := by
  cases h with
  | word h =>
      obtain ⟨hw, hx⟩ := longest_isWord.mp h
      have hp : ∀ c ∈ brackets, continuesWord c = continuesWord '(' :=
        forall_brackets rfl (by decide +kernel) (by decide +kernel)
      exact .word (longest_isWord.mpr ⟨hw, hxy.head? hp hx⟩)
  | number h =>
      have hnumber := splits_number.alike (number_eq h) hxy
      obtain ⟨c, cs, rfl, hc⟩ := h.holds.eq_cons
      have hlongest := number_longest hc (cs ++ y)
      rw [← List.cons_append, hnumber] at hlongest
      exact .number hlongest
  | string h => exact .string h
  | mark h => exact .mark h

/-- Where leading trivia ends depends on the next character only. -/
theorem gapFrom_congr {b : Bool} {c : Char} (hc : c ≠ '/') {l : List Char}
    (h : gapFrom b (l ++ c :: x) = (l, c :: x)) : gapFrom b (l ++ c :: y) = (l, c :: y) := by
  induction l generalizing b with
  | nil =>
      cases b with
      | true => simp [gapFrom] at h
      | false =>
          cases hg : isGap c with
          | true => simp [gapFrom, hg] at h
          | false => simp [gapFrom, hg, hc]
  | cons d l ih =>
      have hhead : (l ++ c :: y).head? = (l ++ c :: x).head? := by cases l <;> rfl
      rw [List.cons_append] at h ⊢
      cases b with
      | true =>
          rcases hrec : gapFrom (!endsComment d) (l ++ c :: x) with ⟨gap, rest⟩
          obtain ⟨rfl, rfl⟩ : gap = l ∧ rest = c :: x := by simpa [gapFrom, hrec] using h
          simp [gapFrom, ih hrec]
      | false =>
          rw [gapFrom] at h ⊢
          rw [hhead]
          split at h
          · next hg =>
            rcases hrec : gapFrom false (l ++ c :: x) with ⟨gap, rest⟩
            obtain ⟨rfl, rfl⟩ : gap = l ∧ rest = c :: x := by simpa [hrec] using h
            simp [hg, ih hrec]
          · next hg =>
            split at h
            · next hs =>
              rcases hrec : gapFrom true (l ++ c :: x) with ⟨gap, rest⟩
              obtain ⟨rfl, rfl⟩ : gap = l ∧ rest = c :: x := by simpa [hrec] using h
              rw [if_neg hg, if_pos hs, ih hrec]
            · cases h

/-- No line feed stands in an indent or a comment. -/
theorem newline_not_mem {cs u x : List Char}
    (h : andThen (run isIndent) comment cs = (u, x)) : '\n' ∉ u := by
  obtain ⟨i, n, rfl, hi, hn⟩ := (andThen_eq splits_comment).mp h
  intro hmem
  rcases List.mem_append.mp hmem with hmem | hmem
  · cases (run_eq.mp hi).2.1 _ hmem
  · cases n with
    | nil => cases hmem
    | cons c n =>
        obtain ⟨ns, ds, rfl, rfl, -, hrun⟩ := eq_of_comment hn
        have hns : '\n' ∈ ns := by simpa using hmem
        cases (run_eq.mp hrun).2.1 _ hns

/-- Trailing trivia that ends its line is followed by anything. -/
theorem trailing_of_newline {u : List Char}
    (h : trailing (u ++ ['\n'] ++ x) = (u ++ ['\n'], x)) (y : List Char) :
    trailing (u ++ ['\n'] ++ y) = (u ++ ['\n'], y) := by
  rw [trailing_eq_andThen] at h ⊢
  obtain ⟨a, b, hab, ha, hb⟩ := (andThen_eq splits_lineBreak).mp h
  have hne : b ≠ [] := by
    rintro rfl
    refine newline_not_mem ha ?_
    rw [List.append_nil] at hab
    simp [← hab]
  obtain ⟨⟨v, rfl⟩, hb'⟩ := lineBreak_append_of_ne hb hne y
  have halike : Alike (v ++ ['\n'] ++ x) (v ++ ['\n'] ++ y) := by
    rw [List.append_assoc, List.append_assoc]
    exact .append v (.newline x y)
  rw [hab, List.append_assoc] at ha ⊢
  refine (andThen_eq splits_lineBreak).mpr ⟨a, _, rfl, ?_, hb'⟩
  exact splits_note.alike ha halike

end

/-! ## Settled tokens -/

/-- The token is cut off before `x` with just the trivia that it has. -/
def Settles (t : Token) (x : List Char) : Prop := token? (t.whole.toList ++ x) = some (t, x)

section

variable {t : Token} {x y : List Char}

/-- The three parts of a token. -/
theorem token?_parts {cs : List Char} : token? cs = some (t, x) ↔
    leading cs = (t.leading.toList, t.text.toList ++ (t.trailing.toList ++ x)) ∧
      Lexeme t.kind t.text.toList (t.trailing.toList ++ x) ∧
      trailing (t.trailing.toList ++ x) = (t.trailing.toList, x) := by
  constructor
  · intro h
    obtain ⟨k, w, r, hlex, rfl, rfl⟩ := token?_eq_some.mp h
    obtain ⟨hsplit, hw⟩ := lexeme?_eq_some.mp hlex
    simp only [String.toList_ofList, trailing_append]
    exact ⟨Prod.ext rfl hsplit, hw, trivial⟩
  · rintro ⟨hl, hw, ht⟩
    refine token?_eq_some.mpr ⟨t.kind, t.text.toList, t.trailing.toList ++ x, ?_, ?_, ?_⟩
    · rw [hl]
      exact lexeme?_eq_some.mpr ⟨rfl, hw⟩
    · simp [hl, ht]
    · rw [ht]

theorem settles_iff : Settles t x ↔
    leading (t.leading.toList ++ (t.text.toList ++ (t.trailing.toList ++ x))) =
        (t.leading.toList, t.text.toList ++ (t.trailing.toList ++ x)) ∧
      Lexeme t.kind t.text.toList (t.trailing.toList ++ x) ∧
      trailing (t.trailing.toList ++ x) = (t.trailing.toList, x) := by
  have hwhole : t.whole.toList ++ x =
      t.leading.toList ++ (t.text.toList ++ (t.trailing.toList ++ x)) := by
    simp [Token.whole]
  rw [Settles, hwhole, token?_parts]

theorem Settles.leading_eq (h : Settles t x) : leading (t.whole.toList ++ x) =
    (t.leading.toList, t.text.toList ++ (t.trailing.toList ++ x)) := (token?_parts.mp h).1

theorem Settles.text_ne_empty (h : Settles t x) : t.text ≠ "" := by
  obtain ⟨c, cs, htext, -⟩ := (token?_parts.mp h).2.1.eq_cons
  simp [← String.toList_inj, htext]

theorem Settles.leading_ne_nil (h : Settles t x) : (leading (t.whole.toList ++ x)).2 ≠ [] := by
  simp [h.leading_eq, h.text_ne_empty]

/-- What follows a token changes nothing about its leading trivia. -/
theorem leading_congr {k : TokenKind} {l w : List Char} (hw : Lexeme k w x)
    (h : leading (l ++ (w ++ x)) = (l, w ++ x)) (y : List Char) :
    leading (l ++ (w ++ y)) = (l, w ++ y) := by
  obtain ⟨c, cs, rfl, -, hc⟩ := hw.eq_cons
  exact gapFrom_congr hc h

theorem Settles.alike (h : Settles t x) (hxy : Alike x y) : Settles t y := by
  obtain ⟨hl, hw, ht⟩ := settles_iff.mp h
  exact settles_iff.mpr ⟨leading_congr hw hl _, hw.alike (hxy.append _),
    splits_trailing.alike ht hxy⟩

/-- A token that ends its line is followed by anything. -/
theorem Settles.of_newline (h : Settles t x) {u : List Char}
    (hu : t.trailing.toList = u ++ ['\n']) (y : List Char) : Settles t y := by
  obtain ⟨hl, hw, ht⟩ := settles_iff.mp h
  have halike : Alike (t.trailing.toList ++ x) (t.trailing.toList ++ y) := by
    rw [hu, List.append_assoc, List.append_assoc]
    exact .append u (.newline x y)
  refine settles_iff.mpr ⟨leading_congr hw hl _, hw.alike halike, ?_⟩
  rw [hu] at ht ⊢
  exact trailing_of_newline ht y

/-- A token without leading trivia is cut off where its text and its trailing trivia are. -/
theorem settles_of_lexeme {k : TokenKind} {w s : String}
    (hw : Lexeme k w.toList (s.toList ++ x)) (ht : trailing (s.toList ++ x) = (s.toList, x)) :
    Settles ⟨k, "", w, s⟩ x := by
  refine settles_iff.mpr ⟨?_, hw, ht⟩
  simpa using leading_lexeme hw

theorem Settles.unique {u : Token} (ht : Settles t x) (hu : Settles u y)
    (h : t.whole.toList ++ x = u.whole.toList ++ y) : t = u ∧ x = y := by
  rw [Settles, h, hu] at ht
  obtain ⟨rfl, rfl⟩ : u = t ∧ y = x := by simpa using ht
  exact ⟨rfl, rfl⟩

theorem settles_mark {k : TokenKind} {w : String} (hw : mark? k = some w)
    (hx : trailing x = ([], x)) : Settles (.bare k w) x := by
  refine settles_of_lexeme (.mark ?_) hx
  rwa [String.ofList_toList]

theorem trailing_lexeme {k : TokenKind} {w : List Char} (hw : Lexeme k w x) :
    trailing (w ++ x) = ([], w ++ x) := trailing_eq_self hw.noTrivia

end

/-! ## Settled runs -/

/-- Every token of the run is cut off before the others and `x`. -/
def Settled : List Token → List Char → Prop
  | [], _ => True
  | t :: ts, x => Settles t ((Token.wholeAll ts).toList ++ x) ∧ Settled ts x

section

variable {ts us : List Token} {x y : List Char}

@[simp] theorem settled_nil (x : List Char) : Settled [] x := trivial

@[simp] theorem settled_cons {t : Token} : Settled (t :: ts) x ↔
    Settles t ((Token.wholeAll ts).toList ++ x) ∧ Settled ts x := Iff.rfl

theorem settled_append : Settled (ts ++ us) x ↔
    Settled ts ((Token.wholeAll us).toList ++ x) ∧ Settled us x := by
  induction ts with
  | nil => simp
  | cons t ts ih => simp [ih, and_assoc]

theorem Settled.alike (h : Settled ts x) (hxy : Alike x y) : Settled ts y := by
  induction ts with
  | nil => trivial
  | cons t ts ih => exact ⟨h.1.alike (hxy.append _), ih h.2⟩

theorem cut_of_settled (h : Settled ts x) (hx : token? x = none) {fuel : Nat}
    (hfuel : ((Token.wholeAll ts).toList ++ x).length ≤ fuel) :
    cut fuel ((Token.wholeAll ts).toList ++ x) = (ts, x) := by
  induction ts generalizing fuel with
  | nil => cases fuel <;> simp [cut, hx]
  | cons t ts ih =>
      have ht : token? ((Token.wholeAll (t :: ts)).toList ++ x) =
          some (t, (Token.wholeAll ts).toList ++ x) := by
        simpa [Settles] using h.1
      have hlt := length_lt_of_token? ht
      obtain ⟨fuel, rfl⟩ : ∃ n, fuel = n + 1 := ⟨fuel - 1, by omega⟩
      have hrec := @ih h.2 fuel (by omega)
      rw [cut, ht]
      simp [hrec]

theorem settled_of_cut {fuel : Nat} {cs : List Char} (hfuel : cs.length ≤ fuel)
    (h : cut fuel cs = (ts, x)) : Settled ts x ∧ token? x = none := by
  induction fuel generalizing cs ts with
  | zero =>
      obtain ⟨rfl, rfl⟩ : [] = ts ∧ cs = x := by simpa [cut] using h
      obtain rfl : cs = [] := List.eq_nil_of_length_eq_zero (Nat.le_zero.mp hfuel)
      exact ⟨trivial, rfl⟩
  | succ fuel ih =>
      rw [cut] at h
      cases ht : token? cs with
      | none =>
          obtain ⟨rfl, rfl⟩ : [] = ts ∧ cs = x := by simpa [ht] using h
          exact ⟨trivial, ht⟩
      | some p =>
          obtain ⟨t, rest⟩ := p
          rcases hrec : cut fuel rest with ⟨us, s⟩
          obtain ⟨rfl, rfl⟩ : t :: us = ts ∧ s = x := by simpa [ht, hrec] using h
          have hlt := length_lt_of_token? ht
          obtain ⟨hus, hs⟩ := ih (by omega) hrec
          have happ := cut_append fuel rest
          rw [hrec] at happ
          refine ⟨⟨?_, hus⟩, hs⟩
          rw [happ, Settles, token?_append ht, ht]

/-- The tokens of a text are a settled run with no token after it. -/
theorem tokens_eq {cs : List Char} : tokens cs = (ts, x) ↔
    cs = (Token.wholeAll ts).toList ++ x ∧ Settled ts x ∧ token? x = none := by
  constructor
  · intro h
    have happ := tokens_append cs
    rw [h] at happ
    exact ⟨happ.symm, settled_of_cut (Nat.le_refl _) h⟩
  · rintro ⟨rfl, h, hx⟩
    exact cut_of_settled h hx (Nat.le_refl _)

end

/-! ## Ends of lines -/

/-- Every carriage return has a line feed behind it. -/
def CrLf (cs : List Char) : Prop := ∀ u v, cs = u ++ '\r' :: v → ∃ w, v = '\n' :: w

theorem CrLf.of_append {u v : List Char} (h : CrLf (u ++ v)) : CrLf v := by
  rintro u' v' rfl
  exact h (u ++ u') v' (by simp)

/-- Trailing trivia ends its line, or else no trivia follows it. -/
theorem trailing_stop {cs u x : List Char} (h : trailing cs = (u, x)) (hcs : CrLf cs) :
    (∃ v, u = v ++ ['\n']) ∨ leading x = ([], x) := by
  have happ := trailing_append cs
  rw [h] at happ
  have hx : CrLf x := CrLf.of_append (u := u) (by rwa [happ])
  rw [trailing_eq_andThen] at h
  obtain ⟨a, b, rfl, ha, hb⟩ := (andThen_eq splits_lineBreak).mp h
  by_cases hne : b = []
  · obtain rfl := hne
    refine .inr ?_
    obtain ⟨i, n, rfl, hi, hn⟩ := (andThen_eq splits_comment).mp ha
    have hends : ∀ c ∈ x.head?, ¬ endsComment c = true := by
      intro c hc hend
      obtain ⟨x, rfl⟩ := List.head?_eq_some_iff.mp hc
      obtain rfl | rfl : c = '\r' ∨ c = '\n' := by simpa [endsComment] using hend
      · obtain ⟨w, rfl⟩ := hx [] x rfl
        cases hb
      · cases hb
    cases n with
    | nil =>
        obtain ⟨-, -, hindent⟩ := run_eq.mp hi
        refine leading_eq_self ⟨fun c hc hgap => ?_, ?_⟩
        · rcases isGap_iff.mp hgap with hgap | hgap
          · exact hindent c hc hgap
          · exact hends c hc hgap
        · rintro ds rfl
          cases hn
    | cons c n =>
        obtain ⟨ns, ds, -, -, -, hrun⟩ := eq_of_comment hn
        obtain ⟨-, -, hstop⟩ := run_eq.mp hrun
        cases x with
        | nil => rfl
        | cons c x => exact absurd (by simpa using hstop c rfl) (hends c rfl)
  · obtain ⟨⟨v, rfl⟩, -⟩ := lineBreak_append_of_ne hb hne []
    exact .inl ⟨a ++ v, by simp⟩

end CallFill.Lexical
