import CallFill.Proofs.Cutting

/-!
# Characters that divide tokens

Some characters stand in no word and in no number: white space, slashes, semicolons, closing
parentheses.  The text of a token before one of them is the text of a token as well when other
text follows the character, or none.
-/

namespace CallFill.Lexical

/-- No word and no number holds the character. -/
structure Divides (c : Char) : Prop where
  word : ∀ w, IsWord w → c ∉ w
  number : ∀ w, IsNumber w → c ∉ w

theorem IsWord.not_mem {w : List Char} (h : IsWord w) {c : Char} (hat : c ≠ '@')
    (hbegins : beginsWord c = false) (hcontinues : continuesWord c = false) : c ∉ w := by
  have hplain {d : Char} {cs : List Char} (hd : beginsWord d = true)
      (hcs : ∀ e ∈ cs, continuesWord e = true) : c ∉ d :: cs := by
    intro hmem
    rcases List.mem_cons.mp hmem with rfl | hmem
    · exact Bool.eq_false_iff.mp hbegins hd
    · exact Bool.eq_false_iff.mp hcontinues (hcs _ hmem)
  cases h with
  | plain hd hcs => exact hplain hd hcs
  | verbatim hd hcs => exact List.not_mem_cons_of_ne_of_not_mem hat (hplain hd hcs)

theorem IsNumber.not_mem {w : List Char} (h : IsNumber w) {c : Char} (hdot : c ≠ '.')
    (hdigit : c.isDigit = false) (hsuffix : isNumberSuffix c = false) : c ∉ w := by
  have hdigits {ds : List Char} (hds : ∀ d ∈ ds, d.isDigit = true) : c ∉ ds :=
    fun hmem => Bool.eq_false_iff.mp hdigit (hds _ hmem)
  have hsuffixes {ss : List Char} (hss : ∀ s ∈ ss, isNumberSuffix s = true) : c ∉ ss :=
    fun hmem => Bool.eq_false_iff.mp hsuffix (hss _ hmem)
  cases h with
  | whole _ hds hss => simp [hdigits hds, hsuffixes hss]
  | decimal _ hds _ hfs hss => simp [hdot, hdigits hds, hdigits hfs, hsuffixes hss]

theorem divides_of {c : Char} (hword : c ≠ '@' ∧ beginsWord c = false ∧ continuesWord c = false)
    (hnumber : c ≠ '.' ∧ c.isDigit = false ∧ isNumberSuffix c = false) : Divides c where
  word _ hw := hw.not_mem hword.1 hword.2.1 hword.2.2
  number _ hw := hw.not_mem hnumber.1 hnumber.2.1 hnumber.2.2

theorem divides_closeParen : Divides ')' := divides_of (by decide +kernel) (by decide)

theorem divides_semicolon : Divides ';' := divides_of (by decide +kernel) (by decide)

theorem divides_slash : Divides '/' := divides_of (by decide +kernel) (by decide)

theorem divides_of_isBlank {c : Char} (h : Text.isBlank c = true) : Divides c := by
  have hne {d : Char} (hd : Text.isBlank d = false) : c ≠ d := by
    rintro rfl
    exact absurd h (by simp [hd])
  have hbegins := beginsWord_of_isBlank h
  have hnumeric : Text.isNumeric c = false := by
    have hpoints : ∀ n ∈ points Text.blankRanges, Text.numericRanges.has n = false := by
      decide +kernel
    exact hpoints _ (mem_points h)
  have hdigit : c.isDigit = false := by
    have hpoints : ∀ n ∈ points Text.blankRanges, n ∉ List.range' 48 10 := by decide +kernel
    exact Bool.eq_false_iff.mpr fun hc => hpoints _ (mem_points h) (isDigit_iff.mp hc)
  have hsuffix : isNumberSuffix c = false := by
    refine Bool.eq_false_iff.mpr fun hc => ?_
    simp only [isNumberSuffix, Bool.or_eq_true, beq_iff_eq, or_assoc] at hc
    rcases hc with rfl | rfl | rfl | rfl | rfl | rfl | rfl | rfl | rfl | rfl
    all_goals exact absurd h (by decide)
  refine divides_of ⟨hne (by decide), hbegins, ?_⟩ ⟨hne (by decide), hdigit, hsuffix⟩
  simp only [beginsWord, Bool.or_eq_false_iff] at hbegins
  simp [continuesWord, hbegins.1, hnumeric, hbegins.2]

theorem divides_of_isGap {c : Char} (h : isGap c = true) : Divides c :=
  divides_of_isBlank (isBlank_of_isGap h)

/-! ## Before other texts -/

section

variable {p : List Char → Prop} {k : TokenKind} {w x y : List Char} {c : Char}

/-- What is the longest before a text is the longest before a shorter one. -/
theorem Longest.of_append (h : Longest p w (x ++ y)) : Longest p w x := by
  refine ⟨h.holds, fun v s hv heq => h.longest v (s ++ y) hv ?_⟩
  rw [← List.append_assoc, heq, List.append_assoc]

/-- A character that occurs in no `p` ends the longest one as the end of the text does. -/
theorem Longest.append_cons (h : Longest p w x) (hc : ∀ v, p v → c ∉ v) (y : List Char) :
    Longest p w (x ++ c :: y) := by
  refine ⟨h.holds, fun v s hv heq => ?_⟩
  rw [← List.append_assoc] at heq
  rcases List.append_eq_append_iff.mp heq with ⟨m, hm, -⟩ | ⟨_ | ⟨d, m⟩, rfl, hm⟩
  · exact h.longest v m hv hm.symm
  · exact h.longest _ [] hv (by simp)
  · obtain ⟨rfl, -⟩ := List.cons.inj hm
    exact absurd (by simp) (hc _ hv)

theorem Lexeme.of_append (h : Lexeme k w (x ++ y)) : Lexeme k w x := by
  cases h with
  | word h => exact .word h.of_append
  | number h => exact .number h.of_append
  | string h => exact .string h
  | mark h => exact .mark h

/-- The text of a token stays one when more follows behind a character that divides. -/
theorem Lexeme.append_cons (h : Lexeme k w x) (hc : Divides c) (y : List Char) :
    Lexeme k w (x ++ c :: y) := by
  cases h with
  | word h => exact .word (h.append_cons hc.word y)
  | number h => exact .number (h.append_cons hc.number y)
  | string h => exact .string h
  | mark h => exact .mark h

end

end CallFill.Lexical
