import CallFill.Json.Reader
import CallFill.Json.Writer
import CallFill.Proofs.TokenText

/-!
# Reading written JSON

The reader takes back what the writer gives, whatever follows it: a string by the pieces that its
characters are escaped as, a number by its digits, which end where the text cannot go on with the
number, and arrays and objects item by item.  So a value of which no part is half of a surrogate
pair or a number with a sign, a point or an exponent is read from its own text.
-/

namespace CallFill.Json

/-! ## Strings -/

theorem hexValue?_hexDigit {n : Nat} (h : n < 16) : Text.hexValue? (hexDigit n) = some n := by
  have hall : ∀ n < 16, Text.hexValue? (hexDigit n) = some n := by decide
  exact hall n h

/-- Four digits of which the first two are zero. -/
theorem hex4?_hexDigit {n : Nat} (h : n < 256) :
    hex4? '0' '0' (hexDigit (n / 16)) (hexDigit (n % 16)) = some n := by
  have hzero : Text.hexValue? '0' = some 0 := rfl
  simp only [hex4?, hzero, hexValue?_hexDigit (n := n / 16) (by omega),
    hexValue?_hexDigit (n := n % 16) (by omega), Option.some.injEq]
  omega

/-- The ways in which a character is written. -/
inductive Escapes (c : Char) : List Char → Prop
  | short {d : Char} (hd : d ≠ 'u') (hc : shortEscape? d = some c) : Escapes c ['\\', d]
  | unit (hc : c.toNat < 0x20) :
      Escapes c ['\\', 'u', '0', '0', hexDigit (c.toNat / 16), hexDigit (c.toNat % 16)]
  | plain (hquote : c ≠ '"') (hslash : c ≠ '\\') (hc : ¬ c.toNat < 0x20) : Escapes c [c]

theorem escapes (c : Char) : Escapes c (escape c) := by
  unfold escape
  split
  next hc =>
    subst hc
    exact .short (by decide) rfl
  next hquote =>
    split
    next hc =>
      subst hc
      exact .short (by decide) rfl
    next hslash =>
      repeat
        split
        next hc =>
          subst hc
          exact .short (by decide) rfl
      split
      next hc => exact .unit hc
      next hc => exact .plain hquote hslash hc

/-- A character is read back from the way in which it is written. -/
theorem Escapes.pieces? {c : Char} {e cs rest : List Char} {ps : List Piece}
    (he : Escapes c e) (h : pieces? cs = some (ps, rest)) :
    pieces? (e ++ cs) = some (.char c :: ps, rest) := by
  cases he with
  | @short d hd hc => simp [Json.pieces?, hd, hc, h]
  | unit hc =>
      have hunit : Piece.ofUnit c.toNat = .char c := by
        rw [Piece.ofUnit, if_neg (by omega), Char.ofNat_toNat]
      simp [Json.pieces?, hex4?_hexDigit (n := c.toNat) (by omega), hunit, h]
  | plain hquote hslash hc => simp [Json.pieces?, hslash, hc, h]

theorem pieces?_flatMap (cs rest : List Char) :
    pieces? (cs.flatMap escape ++ '"' :: rest) = some (cs.map .char, rest) := by
  induction cs with
  | nil => rfl
  | cons c cs ih =>
      rw [List.flatMap_cons, List.append_assoc]
      exact (escapes c).pieces? ih

theorem join?_chars (cs : List Char) : join? (cs.map .char) = some cs := by
  induction cs with
  | nil => rfl
  | cons c cs ih => simp [join?, ih]

/-- A string is read from the text behind its opening quote. -/
theorem string?_quoted (s : String) (rest : List Char) :
    string? (s.toList.flatMap escape ++ '"' :: rest) = some (some s, rest) := by
  simp only [string?, pieces?_flatMap, join?_chars, Option.map_some, String.ofList_toList]

/-! ## Numbers -/

/-- The text ends here, or the value before it does. -/
def Ends (rest : List Char) : Prop := ∀ c ∈ rest.head?, c = ',' ∨ c = ']' ∨ c = '\x7d'

@[simp] theorem ends_cons {c : Char} {cs : List Char} :
    Ends (c :: cs) ↔ c = ',' ∨ c = ']' ∨ c = '\x7d' := by
  simp [Ends]

theorem isDigit_of_mem_toDigits {n : Nat} {c : Char} (h : c ∈ Nat.toDigits 10 n) :
    c.isDigit = true :=
  Nat.isDigit_of_mem_toDigits (by decide) (by decide) h

theorem exists_toDigits (n : Nat) :
    ∃ d ds, Nat.toDigits 10 n = d :: ds ∧ d.isDigit = true := by
  obtain ⟨d, ds, hds⟩ :=
    List.exists_cons_of_ne_nil (Nat.toDigits_ne_nil (n := n) (b := 10))
  exact ⟨d, ds, hds, isDigit_of_mem_toDigits (n := n) (by simp [hds])⟩

/-- Only zero has a zero in front. -/
theorem eq_zero_of_toDigits {n : Nat} {ds : List Char} (h : Nat.toDigits 10 n = '0' :: ds) :
    n = 0 := by
  induction n using Nat.strongRecOn generalizing ds with
  | ind n ih =>
      rw [Nat.toDigits_eq_if (by decide)] at h
      split at h
      next hlt =>
        have hall : ∀ n < 10, Nat.digitChar n = '0' → n = 0 := by decide
        exact hall n hlt (List.cons.inj h).1
      next hle =>
        obtain ⟨d, front, hfront, -⟩ := exists_toDigits (n / 10)
        rw [hfront] at h
        obtain ⟨rfl, -⟩ := List.cons.inj h
        have hzero := ih (n / 10) (by omega) hfront
        omega

theorem natOfDigits_toDigits (n : Nat) : natOfDigits (Nat.toDigits 10 n) = n := by
  have hfold := @Nat.ofDigitChars_ten_toDigits n
  rw [Nat.ofDigitChars_eq_foldl] at hfold
  simpa only [natOfDigits, Nat.mul_comm 10] using hfold

section

variable {rest : List Char}

theorem Ends.not_isDigit (h : Ends rest) : ∀ c ∈ rest.head?, ¬ c.isDigit = true := by
  intro c hc
  rcases h c hc with rfl | rfl | rfl <;> decide

theorem integer?_toDigits (n : Nat) (h : Ends rest) :
    integer? (Nat.toDigits 10 n ++ rest) = some (Nat.toDigits 10 n, rest) := by
  obtain ⟨d, ds, hds, hhead⟩ := exists_toDigits n
  have htail : ∀ c ∈ ds, c.isDigit = true := fun c hc =>
    isDigit_of_mem_toDigits (n := n) (by simp [hds, hc])
  rw [hds, List.cons_append, integer?]
  by_cases hd : d = '0'
  · subst hd
    obtain rfl := eq_zero_of_toDigits hds
    obtain rfl : ds = [] := by simpa using hds.symm
    have hstop : rest.head?.any Char.isDigit = false := by
      cases rest with
      | nil => rfl
      | cons c rest => simpa using h.not_isDigit c rfl
    simp [hstop]
  · obtain ⟨htake, hdrop⟩ := Lexical.span_stop htail rest h.not_isDigit
    rw [if_neg hd, if_pos hhead, htake, hdrop]

theorem fraction?_ends (h : Ends rest) : fraction? rest = some ([], rest) := by
  cases rest with
  | nil => rfl
  | cons c rest => rcases h c rfl with rfl | rfl | rfl <;> rfl

theorem exponent?_ends (h : Ends rest) : exponent? rest = some ([], rest) := by
  cases rest with
  | nil => rfl
  | cons c rest => rcases h c rfl with rfl | rfl | rfl <;> rfl

/-- A number is read up to where no number goes on. -/
theorem number?_toDigits {n : Nat} (hn : n < UInt64.size) (h : Ends rest) :
    number? (Nat.toDigits 10 n ++ rest) = some (.natural n, rest) := by
  obtain ⟨d, ds, hds, hd⟩ := exists_toDigits n
  have hsign : (Nat.toDigits 10 n ++ rest).head? ≠ some '-' := by
    rw [hds]
    rintro ⟨⟩
    exact absurd hd (by decide)
  simp only [number?, if_neg hsign, List.length_nil, List.drop_zero, integer?_toDigits n h,
    Option.bind_eq_bind, Option.bind_some, fraction?_ends h, exponent?_ends h]
  simp [natOfDigits_toDigits, hn]

end

/-! ## Values -/

/-- A value that is read back from its text: no part of it is half of a surrogate pair, or a number
other than a natural one. -/
inductive Plain : Json → Prop
  | null : Plain .null
  | bool (b : Bool) : Plain (.bool b)
  | natural {n : Nat} (hn : n < UInt64.size) : Plain (.natural n)
  | string (s : String) : Plain (.string (some s))
  | array {items : List Json} (hitems : ∀ j ∈ items, Plain j) : Plain (.array items)
  | object {fields : List (String × Json)} (hfields : ∀ f ∈ fields, Plain f.2) :
      Plain (.record fields)

/-- So many values can be read, whatever the text goes on with. -/
def Reads (item : List Char → Option (Json × List Char)) (j : Json) : Prop :=
  ∀ rest, Ends rest → item (chars j ++ rest) = some (j, rest)

theorem skip_cons {c : Char} (h : isSpace c = false) (cs : List Char) :
    skip (c :: cs) = c :: cs := by
  simp [skip, h]

section

variable {item : List Char → Option (Json × List Char)} {fuel : Nat}

theorem items?_itemChars {j : Json} {js : List Json} (h : ∀ k ∈ j :: js, Reads item k)
    (hfuel : js.length < fuel) (rest : List Char) :
    items? item fuel (chars j ++ (itemChars js ++ ']' :: rest)) = some (j :: js, rest) := by
  induction js generalizing j fuel with
  | nil =>
      obtain ⟨fuel, rfl⟩ := Nat.exists_eq_succ_of_ne_zero (Nat.ne_of_gt hfuel)
      have hj := h j List.mem_cons_self (']' :: rest) (by simp)
      simp only [itemChars, List.nil_append, items?, hj, skip_cons (c := ']') (by decide)]
  | cons k js ih =>
      obtain ⟨fuel, rfl⟩ := Nat.exists_eq_succ_of_ne_zero (Nat.ne_of_gt (Nat.zero_lt_of_lt hfuel))
      obtain ⟨hj, hjs⟩ := List.forall_mem_cons.mp h
      obtain ⟨tail, htail, hrest⟩ : ∃ tail, itemChars (k :: js) ++ ']' :: rest = ',' :: tail ∧
          items? item fuel tail = some (k :: js, rest) :=
        ⟨_, by simp [itemChars], ih hjs (Nat.lt_of_succ_lt_succ hfuel)⟩
      have hj := hj (',' :: tail) (by simp)
      simp only [htail, items?, hj, skip_cons (c := ',') (by decide), hrest]

/-- The fields of a record as they stand in the object. -/
def named (fields : List (String × Json)) : List (Option String × Json) :=
  fields.map fun (name, value) => (some name, value)

theorem record_eq (fields : List (String × Json)) : record fields = .object (named fields) := rfl

theorem quoteChars_append (s : String) (cs : List Char) :
    quoteChars (some s) ++ cs = '"' :: (s.toList.flatMap escape ++ '"' :: cs) := by
  simp [quoteChars]

theorem fieldList?_fieldChars {f : String × Json} {fs : List (String × Json)}
    (h : ∀ g ∈ f :: fs, Reads item g.2) (hfuel : fs.length < fuel) (rest : List Char) :
    fieldList? item fuel (quoteChars (some f.1) ++ ':' :: (chars f.2 ++
      (fieldChars (named fs) ++ '\x7d' :: rest))) = some (named (f :: fs), rest) := by
  induction fs generalizing f fuel with
  | nil =>
      obtain ⟨fuel, rfl⟩ := Nat.exists_eq_succ_of_ne_zero (Nat.ne_of_gt hfuel)
      have hf := h f List.mem_cons_self ('\x7d' :: rest) (by simp)
      simp only [quoteChars_append, named, List.map_nil, fieldChars, List.nil_append, fieldList?,
        string?_quoted, hf, skip_cons (c := '"') (by decide), skip_cons (c := ':') (by decide),
        skip_cons (c := '\x7d') (by decide), List.map_cons]
  | cons g fs ih =>
      obtain ⟨fuel, rfl⟩ := Nat.exists_eq_succ_of_ne_zero (Nat.ne_of_gt (Nat.zero_lt_of_lt hfuel))
      obtain ⟨hf, hfs⟩ := List.forall_mem_cons.mp h
      obtain ⟨tail, htail, hrest⟩ : ∃ tail,
          fieldChars (named (g :: fs)) ++ '\x7d' :: rest = ',' :: tail ∧
            fieldList? item fuel tail = some (named (g :: fs), rest) :=
        ⟨_, by simp [named, fieldChars], ih hfs (Nat.lt_of_succ_lt_succ hfuel)⟩
      have hf := hf (',' :: tail) (by simp)
      simp only [quoteChars_append, htail, fieldList?, string?_quoted, hf,
        skip_cons (c := '"') (by decide), skip_cons (c := ':') (by decide),
        skip_cons (c := ',') (by decide), hrest]
      rfl

end

/-! ## Whole texts -/

theorem length_itemChars (js : List Json) : js.length ≤ (itemChars js).length ∧
    ∀ k ∈ js, (chars k).length ≤ (itemChars js).length := by
  induction js with
  | nil => simp
  | cons j js ih =>
      obtain ⟨hlength, hitems⟩ := ih
      simp only [itemChars, List.length_append, List.length_cons, List.forall_mem_cons]
      exact ⟨by omega, by omega, fun k hk => by have := hitems k hk; omega⟩

theorem length_fieldChars (fs : List (String × Json)) :
    fs.length ≤ (fieldChars (named fs)).length ∧
      ∀ f ∈ fs, (chars f.2).length ≤ (fieldChars (named fs)).length := by
  induction fs with
  | nil => simp [named, fieldChars]
  | cons f fs ih =>
      obtain ⟨hlength, hfields⟩ := ih
      have hcons : fieldChars (named (f :: fs)) =
          ',' :: quoteChars (some f.1) ++ ':' :: chars f.2 ++ fieldChars (named fs) := rfl
      simp only [hcons, List.length_append, List.length_cons, List.forall_mem_cons]
      exact ⟨by omega, by omega, fun g hg => by have := hfields g hg; omega⟩

theorem not_isSpace_of_isDigit {d : Char} (hd : d.isDigit = true) : isSpace d = false := by
  refine Bool.eq_false_iff.mpr fun hspace => ?_
  simp only [isSpace, Bool.or_eq_true, beq_iff_eq, or_assoc] at hspace
  rcases hspace with rfl | rfl | rfl | rfl
  all_goals exact absurd hd (by decide)

/-- A digit begins a number and nothing else. -/
theorem value?_digit {d : Char} (hd : d.isDigit = true) (fuel : Nat) (cs : List Char) :
    value? (fuel + 1) (d :: cs) = number? (d :: cs) := by
  rw [value?, skip_cons (not_isSpace_of_isDigit hd)]
  split
  all_goals first
    | rfl
    | next heq =>
        obtain ⟨rfl, -⟩ := List.cons.inj heq
        exact absurd hd (by decide)

/-- An array of which the first item begins with `c`. -/
theorem value?_openBracket {c : Char} (hspace : isSpace c = false) (hclose : c ≠ ']')
    {fuel : Nat} {cs rest : List Char} {items : List Json}
    (h : items? (value? fuel) fuel (c :: cs) = some (items, rest)) :
    value? (fuel + 1) ('[' :: c :: cs) = some (.array items, rest) := by
  simp only [value?, skip_cons (c := '[') (by decide), skip_cons hspace, h]
  split
  next heq => exact absurd (List.cons.inj heq).1 hclose
  next => rfl

/-- An object with at least one field. -/
theorem value?_openBrace {fuel : Nat} {cs rest : List Char}
    {fields : List (Option String × Json)}
    (h : fieldList? (value? fuel) fuel ('"' :: cs) = some (fields, rest)) :
    value? (fuel + 1) ('\x7b' :: '"' :: cs) = some (.object fields, rest) := by
  simp only [value?, skip_cons (c := '\x7b') (by decide), skip_cons (c := '"') (by decide), h]
  rfl

/-- The first character of a plain value is no space and ends no list. -/
theorem Plain.chars_eq_cons {j : Json} (h : Plain j) :
    ∃ c cs, chars j = c :: cs ∧ isSpace c = false ∧ c ≠ ']' := by
  cases h with
  | null => exact ⟨_, _, rfl, rfl, by decide⟩
  | bool b => cases b <;> exact ⟨_, _, rfl, rfl, by decide⟩
  | @natural n hn =>
      obtain ⟨d, ds, hds, hd⟩ := exists_toDigits n
      refine ⟨d, ds, hds, not_isSpace_of_isDigit hd, ?_⟩
      rintro rfl
      exact absurd hd (by decide)
  | string s => exact ⟨_, _, rfl, rfl, by decide⟩
  | @array items hitems => cases items <;> exact ⟨_, _, rfl, rfl, by decide⟩
  | @object fields hfields => cases fields <;> exact ⟨_, _, rfl, rfl, by decide⟩

/-- A plain value is read from its text, whatever follows it, with more fuel than it has
characters. -/
theorem Plain.reads {j : Json} (h : Plain j) {fuel : Nat} (hfuel : (chars j).length ≤ fuel) :
    Reads (value? (fuel + 1)) j := by
  intro rest hrest
  induction h generalizing fuel rest with
  | null => simp [chars, value?, skip_cons (c := 'n') (by decide)]
  | bool b =>
      cases b with
      | true => simp [chars, value?, skip_cons (c := 't') (by decide)]
      | false => simp [chars, value?, skip_cons (c := 'f') (by decide)]
  | @natural n hn =>
      obtain ⟨d, ds, hds, hd⟩ := exists_toDigits n
      have hnumber := number?_toDigits hn hrest
      rw [hds] at hnumber
      rw [chars, hds, List.cons_append, value?_digit hd]
      exact hnumber
  | string s =>
      simp only [chars, quoteChars_append, value?, skip_cons (c := '"') (by decide), string?_quoted]
  | @array items hitems ih =>
      cases items with
      | nil =>
          simp [chars, value?, skip_cons (c := '[') (by decide), skip_cons (c := ']') (by decide)]
      | cons k js =>
          obtain ⟨hjs, hlengths⟩ := length_itemChars js
          simp only [chars, List.length_append, List.length_cons] at hfuel
          obtain ⟨fuel, rfl⟩ : ∃ n, fuel = n + 1 := ⟨fuel - 1, by omega⟩
          have hfits : ∀ m ∈ k :: js, (chars m).length ≤ fuel := by
            refine List.forall_mem_cons.mpr ⟨by omega, fun m hm => ?_⟩
            have := hlengths m hm
            omega
          have hlt : js.length < fuel + 1 := by omega
          have hread := items?_itemChars (fun m hm rest => ih m hm (hfits m hm) rest) hlt rest
          obtain ⟨c, cs, hk, hspace, hclose⟩ := (hitems k List.mem_cons_self).chars_eq_cons
          rw [hk, List.cons_append] at hread
          simpa [chars, hk] using value?_openBracket hspace hclose hread
  | @object fields hfields ih =>
      cases fields with
      | nil =>
          simp [record, chars, value?, skip_cons (c := '\x7b') (by decide),
            skip_cons (c := '\x7d') (by decide)]
      | cons f fs =>
          have hchars : chars (record (f :: fs)) = '\x7b' :: quoteChars (some f.1) ++
              ':' :: chars f.2 ++ fieldChars (named fs) ++ ['\x7d'] := rfl
          obtain ⟨hfs, hlengths⟩ := length_fieldChars fs
          simp only [hchars, List.length_append, List.length_cons] at hfuel
          obtain ⟨fuel, rfl⟩ : ∃ n, fuel = n + 1 := ⟨fuel - 1, by omega⟩
          have hfits : ∀ g ∈ f :: fs, (chars g.2).length ≤ fuel := by
            refine List.forall_mem_cons.mpr ⟨by omega, fun g hg => ?_⟩
            have := hlengths g hg
            omega
          have hlt : fs.length < fuel + 1 := by omega
          have hread := fieldList?_fieldChars (fun g hg rest => ih g hg (hfits g hg) rest) hlt rest
          rw [quoteChars_append] at hread
          rw [hchars, record_eq]
          simpa [quoteChars_append] using value?_openBrace hread

/-- A plain value is read from its own text. -/
theorem read?_render {j : Json} (h : Plain j) : read? j.render = some j := by
  have hvalue := h.reads (Nat.le_refl _) [] (by simp [Ends])
  rw [List.append_nil] at hvalue
  rw [read?, render, String.toList_ofList, hvalue]
  rfl

end CallFill.Json
