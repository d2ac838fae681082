import CallFill.Lexical.Tokens

/-!
# The texts of tokens

What a word, a number, a string and a mark are, said without a scanner, and that the scanner takes
just these.  Words and numbers are taken as long as they can be; no string and no mark begins with
another one.
-/

namespace CallFill.Lexical

open Text

/-! ## Longest prefixes -/

/-- The text `w` before `rest` is the longest prefix of the two together that is a `p`. -/
structure Longest (p : List Char → Prop) (w rest : List Char) : Prop where
  holds : p w
  longest : ∀ v s, p v → v ++ s = w ++ rest → v.length ≤ w.length

/-- Before the end of the text every `p` is the longest. -/
theorem longest_nil {p : List Char → Prop} {w : List Char} (h : p w) : Longest p w [] := by
  refine ⟨h, fun v s _ hv => ?_⟩
  have hlen := congrArg List.length hv
  simp only [List.append_nil, List.length_append] at hlen
  omega

theorem Longest.unique {p : List Char → Prop} {w rest v s : List Char} (hw : Longest p w rest)
    (hv : Longest p v s) (h : v ++ s = w ++ rest) : v = w ∧ s = rest := by
  have hle := hw.longest v s hv.holds h
  have hge := hv.longest w rest hw.holds h.symm
  exact List.append_inj h (Nat.le_antisymm hle hge)

/-! ## Words -/

/-- A letter or an underscore and the letters, digits and underscores after it, perhaps with an
at sign in front. -/
inductive IsWord : List Char → Prop
  | plain {c : Char} {cs : List Char} (hc : beginsWord c = true)
      (hcs : ∀ d ∈ cs, continuesWord d = true) : IsWord (c :: cs)
  | verbatim {c : Char} {cs : List Char} (hc : beginsWord c = true)
      (hcs : ∀ d ∈ cs, continuesWord d = true) : IsWord ('@' :: c :: cs)

theorem length_le_takeWhile {p : Char → Bool} {v s : List Char} (h : ∀ c ∈ v, p c = true) :
    v.length ≤ ((v ++ s).takeWhile p).length := by
  rw [List.takeWhile_append_of_pos h, List.length_append]
  omega

theorem of_mem_takeWhile {p : Char → Bool} {cs : List Char} {c : Char}
    (h : c ∈ cs.takeWhile p) : p c = true := List.all_eq_true.mp List.all_takeWhile c h

theorem beginsWord_at : beginsWord '@' = false := by decide +kernel

/-- The scanner of words takes the longest word. -/
theorem word?_longest {cs w rest : List Char} (h : word? cs = some (w, rest)) :
    Longest IsWord w rest := by
  have happ := word?_append h
  revert h
  fun_cases word? cs with
  | case1 => simp
  | case2 c cs hc =>
      rintro ⟨⟩
      refine ⟨.plain hc fun d hd => of_mem_takeWhile hd, fun v s hv heq => ?_⟩
      rw [happ] at heq
      cases hv with
      | @plain d ds hd hds =>
          obtain ⟨rfl, rfl⟩ : d = c ∧ ds ++ s = cs := by simpa using heq
          exact Nat.succ_le_succ (length_le_takeWhile hds)
      | @verbatim d ds hd hds =>
          obtain ⟨rfl, -⟩ : '@' = c ∧ d :: ds ++ s = cs := by simpa using heq
          simp [beginsWord_at] at hc
  | case3 => simp
  | case4 c hc hat d ds hd =>
      rintro ⟨⟩
      obtain rfl : c = '@' := by simpa using hat
      refine ⟨.verbatim hd fun e he => of_mem_takeWhile he, fun v s hv heq => ?_⟩
      rw [happ] at heq
      cases hv with
      | @plain e es he hes =>
          obtain ⟨rfl, -⟩ : e = '@' ∧ es ++ s = d :: ds := by simpa using heq
          exact absurd he hc
      | @verbatim e es he hes =>
          obtain ⟨rfl, rfl⟩ : e = d ∧ es ++ s = ds := by simpa using heq
          exact Nat.succ_le_succ (Nat.succ_le_succ (length_le_takeWhile hes))
  | case5 => simp
  | case6 => simp

theorem word?_isSome {w : List Char} (h : IsWord w) (rest : List Char) :
    (word? (w ++ rest)).isSome := by
  cases h with
  | plain hc _ => simp [word?, hc]
  | verbatim hc _ => simp [word?, hc, beginsWord_at]

theorem word?_eq_some {cs w rest : List Char} :
    word? cs = some (w, rest) ↔ cs = w ++ rest ∧ Longest IsWord w rest := by
  constructor
  · intro h
    exact ⟨(word?_append h).symm, word?_longest h⟩
  · rintro ⟨rfl, h⟩
    obtain ⟨⟨v, s⟩, hv⟩ := Option.isSome_iff_exists.mp (word?_isSome h.holds rest)
    obtain ⟨rfl, rfl⟩ := h.unique (word?_longest hv) (word?_append hv)
    exact hv

/-! ## Numbers -/

/-- Digits, perhaps a point with digits after it, and any suffix letters. -/
inductive IsNumber : List Char → Prop
  | whole {ds ss : List Char} (hne : ds ≠ []) (hds : ∀ d ∈ ds, d.isDigit = true)
      (hss : ∀ s ∈ ss, isNumberSuffix s = true) : IsNumber (ds ++ ss)
  | decimal {ds fs ss : List Char} (hne : ds ≠ []) (hds : ∀ d ∈ ds, d.isDigit = true)
      (hne' : fs ≠ []) (hfs : ∀ f ∈ fs, f.isDigit = true)
      (hss : ∀ s ∈ ss, isNumberSuffix s = true) : IsNumber (ds ++ '.' :: (fs ++ ss))

theorem not_isDigit_of_isNumberSuffix {c : Char} (h : isNumberSuffix c = true) :
    ¬ c.isDigit = true ∧ c ≠ '.' := by
  simp only [isNumberSuffix, Bool.or_eq_true, beq_iff_eq, or_assoc] at h
  rcases h with rfl | rfl | rfl | rfl | rfl | rfl | rfl | rfl | rfl | rfl <;> decide

theorem fraction_eq_nil {cs : List Char} (h : ∀ c ∈ cs.head?, c ≠ '.') : fraction cs = ([], cs) := by
  cases cs with
  | nil => rfl
  | cons c cs =>
      have hc : c ≠ '.' := h c rfl
      simp [fraction, hc]

theorem fraction_cons {d : Char} (h : d.isDigit = true) (cs : List Char) :
    fraction ('.' :: d :: cs) =
      ('.' :: d :: cs.takeWhile Char.isDigit, cs.dropWhile Char.isDigit) := by
  simp [fraction, h]

theorem span_stop {p : Char → Bool} {cs : List Char} (hcs : ∀ c ∈ cs, p c = true)
    (rest : List Char) (hrest : ∀ c ∈ rest.head?, ¬ p c = true) :
    (cs ++ rest).takeWhile p = cs ∧ (cs ++ rest).dropWhile p = rest := by
  rw [List.takeWhile_append_of_pos hcs, List.dropWhile_append_of_pos hcs]
  cases rest with
  | nil => simp
  | cons c rest =>
      have hc : ¬ p c = true := hrest c rfl
      simp [hc]

theorem length_le_digits {ds ss : List Char} (hds : ∀ d ∈ ds, d.isDigit = true)
    (hss : ∀ s ∈ ss, isNumberSuffix s = true) (rest : List Char) :
    (ds ++ ss).length ≤ ((ds ++ ss ++ rest).takeWhile Char.isDigit).length +
      (((ds ++ ss ++ rest).dropWhile Char.isDigit).takeWhile isNumberSuffix).length := by
  rw [List.append_assoc]
  cases ss with
  | nil =>
      have hle := length_le_takeWhile (s := rest) hds
      rw [List.append_nil, List.nil_append]
      omega
  | cons c ss =>
      have hc := (not_isDigit_of_isNumberSuffix (hss c (by simp))).1
      obtain ⟨htake, hdrop⟩ := span_stop hds (c :: ss ++ rest) (by simpa using hc)
      have hle := length_le_takeWhile (s := rest) hss
      rw [htake, hdrop, List.length_append]
      omega

/-- No number longer than what the scanner takes begins here. -/
theorem length_le_number {v : List Char} (h : IsNumber v) (rest : List Char) :
    v.length ≤ (number (v ++ rest)).1.length := by
  cases h with
  | @whole ds ss hne hds hss =>
      cases ss with
      | nil =>
          have hle := length_le_takeWhile (s := rest) hds
          simp only [List.append_nil, number, List.length_append]
          omega
      | cons c ss =>
          obtain ⟨hc, hdot⟩ := not_isDigit_of_isNumberSuffix (hss c (by simp))
          have hdrop : (ds ++ c :: ss ++ rest).dropWhile Char.isDigit = c :: ss ++ rest := by
            rw [List.append_assoc]
            exact (span_stop hds _ (by simpa using hc)).2
          have hfrac : fraction (c :: ss ++ rest) = ([], c :: ss ++ rest) :=
            fraction_eq_nil (by simpa using hdot)
          have hle := length_le_digits hds hss rest
          rw [hdrop] at hle
          simp only [number, hdrop, hfrac, List.append_nil, List.length_append] at hle ⊢
          exact hle
  | @decimal ds fs ss hne hds hne' hfs hss =>
      obtain ⟨f, fs, rfl⟩ := List.exists_cons_of_ne_nil hne'
      have heq : ds ++ '.' :: (f :: fs ++ ss) ++ rest = ds ++ '.' :: f :: (fs ++ ss ++ rest) := by
        simp
      obtain ⟨htake, hdrop⟩ := span_stop hds ('.' :: f :: (fs ++ ss ++ rest)) (by simp)
      have hfrac := fraction_cons (hfs f (by simp)) (fs ++ ss ++ rest)
      have hfs' : ∀ d ∈ fs, d.isDigit = true := fun d hd => hfs d (by simp [hd])
      have hle := length_le_digits hfs' hss rest
      simp only [heq, number, htake, hdrop, hfrac, List.length_append, List.length_cons] at hle ⊢
      omega

/-- The scanner of numbers takes a number where there is a digit. -/
theorem number_isNumber {c : Char} (hc : c.isDigit = true) (cs : List Char) :
    IsNumber (number (c :: cs)).1 := by
  have hne : (c :: cs).takeWhile Char.isDigit ≠ [] := by simp [hc]
  have hds : ∀ d ∈ (c :: cs).takeWhile Char.isDigit, d.isDigit = true :=
    fun d hd => of_mem_takeWhile hd
  simp only [number]
  fun_cases fraction ((c :: cs).dropWhile Char.isDigit) with
  | case1 d ds hd =>
      rw [List.append_assoc]
      refine .decimal hne hds (List.cons_ne_nil d _) ?_ fun s hs => of_mem_takeWhile hs
      intro f hf
      rcases List.mem_cons.mp hf with rfl | hf
      · exact hd
      · exact of_mem_takeWhile hf
  | case2 d ds hd =>
      rw [List.append_nil]
      exact .whole hne hds fun s hs => of_mem_takeWhile hs
  | case3 ds hds' =>
      rw [List.append_nil]
      exact .whole hne hds fun s hs => of_mem_takeWhile hs

theorem number_longest {c : Char} (hc : c.isDigit = true) (cs : List Char) :
    Longest IsNumber (number (c :: cs)).1 (number (c :: cs)).2 := by
  refine ⟨number_isNumber hc cs, fun v s hv h => ?_⟩
  rw [number_append] at h
  rw [← h]
  exact length_le_number hv s

theorem IsNumber.eq_cons {w : List Char} (h : IsNumber w) :
    ∃ c cs, w = c :: cs ∧ c.isDigit = true := by
  cases h with
  | @whole ds ss hne hds _ =>
      obtain ⟨d, ds, rfl⟩ := List.exists_cons_of_ne_nil hne
      exact ⟨d, ds ++ ss, rfl, hds d (by simp)⟩
  | @decimal ds fs ss hne hds _ _ _ =>
      obtain ⟨d, ds, rfl⟩ := List.exists_cons_of_ne_nil hne
      exact ⟨d, ds ++ '.' :: (fs ++ ss), rfl, hds d (by simp)⟩

theorem number_eq {w rest : List Char} (h : Longest IsNumber w rest) :
    number (w ++ rest) = (w, rest) := by
  obtain ⟨c, cs, rfl, hc⟩ := h.holds.eq_cons
  obtain ⟨hw, hr⟩ := h.unique (number_longest hc (cs ++ rest)) (number_append _)
  exact Prod.ext hw hr

/-! ## Strings -/

/-- What follows the opening quote of a string: characters other than a quote, a line feed and a
backslash, a backslash with any character after it, and a quote at the end. -/
inductive IsStringTail : List Char → Prop
  | close : IsStringTail ['"']
  | escape (c : Char) {cs : List Char} (h : IsStringTail cs) : IsStringTail ('\\' :: c :: cs)
  | plain {c : Char} {cs : List Char} (hc : c ∉ ['"', '\n', '\\']) (h : IsStringTail cs) :
      IsStringTail (c :: cs)

theorem stringTail?_close (cs : List Char) : stringTail? ('"' :: cs) = some (['"'], cs) := by
  rw [stringTail?.eq_def]
  simp

theorem stringTail?_plain {c : Char} (hc : c ∉ ['"', '\n', '\\']) {cs tail rest : List Char}
    (h : stringTail? cs = some (tail, rest)) :
    stringTail? (c :: cs) = some (c :: tail, rest) := by
  simp only [List.mem_cons, List.not_mem_nil, or_false, not_or] at hc
  rw [stringTail?.eq_def]
  simp [hc, h]

theorem stringTail?_eq_some {cs w rest : List Char} :
    stringTail? cs = some (w, rest) ↔ cs = w ++ rest ∧ IsStringTail w := by
  constructor
  · intro h
    refine ⟨(stringTail?_append h).symm, ?_⟩
    fun_induction stringTail? cs generalizing w rest with
    | case1 => cases h
    | case2 c cs hc =>
        obtain rfl : c = '"' := by simpa using hc
        cases h
        exact .close
    | case3 => cases h
    | case4 => cases h
    | case5 c hc hn hb d ds tail rest' ht ih =>
        obtain rfl : c = '\\' := by simpa using hb
        cases h
        exact .escape d (ih ht)
    | case6 => cases h
    | case7 c cs hc hn hb tail rest' ht ih =>
        cases h
        simp only [beq_iff_eq] at hc hn hb
        exact .plain (by simp [hc, hn, hb]) (ih ht)
    | case8 => cases h
  · rintro ⟨rfl, h⟩
    induction h with
    | close => exact stringTail?_close rest
    | escape c h ih => simp [stringTail?, ih]
    | plain hc h ih => exact stringTail?_plain hc ih

/-! ## Marks -/

/-- The text of the tokens of a kind that has only one. -/
def mark? : TokenKind → Option String
  | .dot => some "."
  | .comma => some ","
  | .semicolon => some ";"
  | .equals => some "="
  | .openParen => some "("
  | .closeParen => some ")"
  | .lessThan => some "<"
  | .greaterThan => some ">"
  | .openBracket => some "["
  | .closeBracket => some "]"
  | .question => some "?"
  | .asterisk => some "*"
  | .colonColon => some "::"
  | .identifier | .keyword | .number | .string | .endOfFile => none

theorem punctuation?_eq_some {cs w rest : List Char} {k : TokenKind} :
    punctuation? cs = some (k, w, rest) ↔ cs = w ++ rest ∧ mark? k = some (String.ofList w) := by
  constructor
  · intro h
    refine ⟨(punctuation?_append h).symm, ?_⟩
    revert h
    fun_cases punctuation? cs <;> rintro ⟨⟩ <;> rfl
  · rintro ⟨rfl, h⟩
    cases k <;> simp only [mark?, Option.some.injEq, reduceCtorEq] at h <;>
      obtain rfl := String.ofList_injective (h.symm.trans String.ofList_toList.symm) <;> rfl

/-! ## All classes -/

/-- The text `w` of a token of kind `k` stands in front of `rest`. -/
inductive Lexeme : TokenKind → List Char → List Char → Prop
  | word {w rest : List Char} (h : Longest IsWord w rest) :
      Lexeme (wordKind (String.ofList w)) w rest
  | number {w rest : List Char} (h : Longest IsNumber w rest) : Lexeme .number w rest
  | string {tail rest : List Char} (h : IsStringTail tail) : Lexeme .string ('"' :: tail) rest
  | mark {k : TokenKind} {w rest : List Char} (h : mark? k = some (String.ofList w)) :
      Lexeme k w rest

theorem isDigit_iff {c : Char} : c.isDigit = true ↔ c.toNat ∈ List.range' 48 10 := by
  simp only [Char.isDigit, Bool.and_eq_true, decide_eq_true_eq, List.mem_range'_1, ge_iff_le,
    UInt32.le_iff_toNat_le]
  show 48 ≤ c.toNat ∧ c.toNat ≤ 57 ↔ _
  omega

/-- A digit begins no word. -/
theorem beginsWord_of_isDigit {c : Char} (h : c.isDigit = true) :
    beginsWord c = false ∧ c ≠ '@' := by
  have hletters : ∀ n ∈ List.range' 48 10, alphabeticRanges.has n = false := by decide +kernel
  have hc : isAlphabetic c = false := hletters _ (isDigit_iff.mp h)
  refine ⟨?_, by rintro rfl; exact absurd h (by decide)⟩
  have hne : c ≠ '_' := by
    rintro rfl
    exact absurd h (by decide)
  simp [beginsWord, hc, hne]

theorem IsWord.eq_cons {w : List Char} (h : IsWord w) :
    ∃ c cs, w = c :: cs ∧ (beginsWord c = true ∨ c = '@') := by
  cases h with
  | plain hc _ => exact ⟨_, _, rfl, .inl hc⟩
  | verbatim _ _ => exact ⟨_, _, rfl, .inr rfl⟩

theorem lexeme?_eq_number {w rest : List Char} (h : Longest IsNumber w rest) :
    lexeme? (w ++ rest) = some (.number, w, rest) := by
  have heq := number_eq h
  obtain ⟨c, cs, rfl, hc⟩ := h.holds.eq_cons
  rw [List.cons_append] at heq ⊢
  rw [lexeme?, if_pos hc, heq]

theorem lexeme?_eq_string {tail : List Char} (h : IsStringTail tail) (rest : List Char) :
    lexeme? ('"' :: tail ++ rest) = some (.string, '"' :: tail, rest) := by
  have htail : stringTail? (tail ++ rest) = some (tail, rest) :=
    stringTail?_eq_some.mpr ⟨rfl, h⟩
  rw [List.cons_append, lexeme?, if_neg (by decide), if_pos (by decide), htail]

theorem lexeme?_eq_word {w rest : List Char} (h : Longest IsWord w rest) :
    lexeme? (w ++ rest) = some (wordKind (String.ofList w), w, rest) := by
  have hword := word?_eq_some.mpr ⟨rfl, h⟩
  obtain ⟨c, cs, rfl, hc⟩ := h.holds.eq_cons
  have hdigit : ¬ c.isDigit = true := by
    intro hd
    obtain ⟨hb, hat⟩ := beginsWord_of_isDigit hd
    rcases hc with hc | hc
    · simp [hb] at hc
    · exact hat hc
  have hquote : ¬ (c == '"') = true := by
    intro hq
    obtain rfl : c = '"' := by simpa using hq
    rcases hc with hc | hc
    · exact absurd hc (by decide +kernel)
    · cases hc
  rw [List.cons_append] at hword ⊢
  rw [lexeme?, if_neg hdigit, if_neg hquote, hword]

theorem lexeme?_eq_mark {k : TokenKind} {w rest : List Char}
    (h : mark? k = some (String.ofList w)) : lexeme? (w ++ rest) = some (k, w, rest) := by
  have hmark : punctuation? (w ++ rest) = some (k, w, rest) :=
    punctuation?_eq_some.mpr ⟨rfl, h⟩
  obtain ⟨c, cs, rfl, hd, hq, hb, hat⟩ : ∃ c cs, w = c :: cs ∧ c.isDigit = false ∧
      (c == '"') = false ∧ beginsWord c = false ∧ (c == '@') = false := by
    cases k <;> simp only [mark?, Option.some.injEq, reduceCtorEq] at h <;>
      obtain rfl := String.ofList_injective (h.symm.trans String.ofList_toList.symm) <;>
      exact ⟨_, _, rfl, by decide, by decide, by decide +kernel, by decide⟩
  rw [List.cons_append] at hmark ⊢
  simp [lexeme?, word?, hd, hq, hb, hat, hmark]

/-- The scanner takes the text of a token where one stands. -/
theorem lexeme?_eq_some {cs w rest : List Char} {k : TokenKind} :
    lexeme? cs = some (k, w, rest) ↔ cs = w ++ rest ∧ Lexeme k w rest := by
  constructor
  · intro h
    refine ⟨(lexeme?_append h).symm, ?_⟩
    cases cs with
    | nil => cases h
    | cons c cs =>
        rw [lexeme?] at h
        split at h
        · next hc =>
          cases h
          exact .number (number_longest hc cs)
        · split at h
          · next hq =>
            obtain rfl : c = '"' := by simpa using hq
            split at h <;> cases h
            next tail htail => exact .string (stringTail?_eq_some.mp htail).2
          · split at h
            · next text rest' hw =>
              cases h
              exact .word (word?_longest hw)
            · exact .mark (punctuation?_eq_some.mp h).2
  · rintro ⟨rfl, h⟩
    cases h with
    | word h => exact lexeme?_eq_word h
    | number h => exact lexeme?_eq_number h
    | string h => exact lexeme?_eq_string h rest
    | mark h => exact lexeme?_eq_mark h

theorem Lexeme.nil {k : TokenKind} {w rest : List Char} (h : Lexeme k w rest) : Lexeme k w [] := by
  cases h with
  | word h => exact .word (longest_nil h.holds)
  | number h => exact .number (longest_nil h.holds)
  | string h => exact .string h
  | mark h => exact .mark h

/-! ## The text of a kind -/

section

variable {k : TokenKind} {w rest : List Char}

theorem wordKind_eq_identifier {s : String} : wordKind s = .identifier ↔ isReserved s = false := by
  unfold wordKind
  split <;> simp_all

theorem Lexeme.isWord (h : Lexeme k w rest) (hk : k = .identifier) :
    IsWord w ∧ isReserved (String.ofList w) = false := by
  cases h with
  | word h => exact ⟨h.holds, wordKind_eq_identifier.mp hk⟩
  | number => cases hk
  | string => cases hk
  | mark h =>
      rw [hk] at h
      cases h

theorem Lexeme.isNumber (h : Lexeme k w rest) (hk : k = .number) : IsNumber w := by
  cases h with
  | word => exact absurd hk (by unfold wordKind; split <;> simp)
  | number h => exact h.holds
  | string => cases hk
  | mark h =>
      rw [hk] at h
      cases h

theorem Lexeme.isString (h : Lexeme k w rest) (hk : k = .string) :
    ∃ tail, w = '"' :: tail ∧ IsStringTail tail := by
  cases h with
  | word => exact absurd hk (by unfold wordKind; split <;> simp)
  | number => cases hk
  | string h => exact ⟨_, rfl, h⟩
  | mark h =>
      rw [hk] at h
      cases h

theorem Lexeme.eq_mark {s : String} (h : Lexeme k w rest) (hs : mark? k = some s) :
    w = s.toList := by
  cases h with
  | word =>
      unfold wordKind at hs
      split at hs <;> cases hs
  | number => cases hs
  | string => cases hs
  | mark h =>
      obtain rfl : String.ofList w = s := Option.some.inj (h.symm.trans hs)
      rw [String.toList_ofList]

theorem Lexeme.ne_endOfFile (h : Lexeme k w rest) : k ≠ .endOfFile := by
  rintro rfl
  generalize hk : TokenKind.endOfFile = k at h
  cases h with
  | word =>
      unfold wordKind at hk
      split at hk <;> cases hk
  | number => cases hk
  | string => cases hk
  | mark h =>
      rw [← hk] at h
      cases h

/-- A text is the text of one kind of token only. -/
theorem Lexeme.kind_unique {j : TokenKind} (h : Lexeme k w rest) (hj : Lexeme j w rest) :
    k = j := by
  have heq := (lexeme?_eq_some.mpr ⟨rfl, h⟩).symm.trans (lexeme?_eq_some.mpr ⟨rfl, hj⟩)
  simpa using heq

end

end CallFill.Lexical
