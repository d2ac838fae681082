import CallFill.Proofs.Shape

/-!
# Readers give fitting trees

What a reader takes off the front of a list of tokens is a fitting tree of the wanted class whose
own tokens are exactly the tokens taken.  Each reader has one lemma that says how it can succeed
(`…_eq_some`), and soundness of a reader follows from that lemma and the soundness of its parts.
-/

namespace CallFill.Grammar

open CallFill.Tree

/-- The tokens `ts` begin with a fitting tree of a class, and `rest` is what follows it. -/
structure Reads (p : NodeKind → Bool) (ts : List Token) (t : Tree) (rest : List Token) : Prop where
  tokens : ts = t.tokens ++ rest
  fits : t.Fits
  isOf : t.isOf p

/-- Whatever the reader gives is a fitting tree of the class. -/
def Sound (p : NodeKind → Bool) (r : Reader) : Prop :=
  ∀ ⦃ts : List Token⦄ ⦃t : Tree⦄ ⦃rest : List Token⦄,
    r ts = some (t, rest) → Reads p ts t rest

theorem Reads.mono {p q : NodeKind → Bool} {ts rest : List Token} {t : Tree}
    (h : Reads p ts t rest) (hpq : ∀ {k}, p k = true → q k = true) : Reads q ts t rest :=
  ⟨h.tokens, h.fits, h.isOf.mono hpq⟩

/-- A node over trees that were read one after the other. -/
theorem Reads.of_node {p : NodeKind → Bool} {k : NodeKind} {fs : List Face} {cs : List Tree}
    {ts rest : List Token} (htok : ts = tokensAll cs ++ rest) (ha : Arranged k fs)
    (hf : cs.map face = fs) (hc : ∀ c ∈ cs, c.Fits) (hp : p k = true) :
    Reads p ts (.node k cs) rest :=
  ⟨by rw [htok, tokens_node], .node ha hf hc, hp⟩

/-! ## Single tokens -/

theorem take?_eq_some {k : TokenKind} {ts rest : List Token} {t : Token} :
    take? k ts = some (t, rest) ↔ ts = t :: rest ∧ t.kind = k := by
  cases ts with
  | nil => simp [take?]
  | cons u us =>
      simp only [take?, Option.ite_none_right_eq_some, Option.some.injEq, Prod.mk.injEq,
        List.cons.injEq]
      constructor
      · rintro ⟨h, rfl, rfl⟩
        exact ⟨⟨rfl, rfl⟩, h⟩
      · rintro ⟨⟨rfl, rfl⟩, h⟩
        exact ⟨h, rfl, rfl⟩

theorem keyword?_eq_some {ws : List String} {ts rest : List Token} {t : Token} :
    keyword? ws ts = some (t, rest) ↔ ts = t :: rest ∧ t.kind = .keyword ∧ t.text ∈ ws := by
  cases ts with
  | nil => simp [keyword?]
  | cons u us =>
      simp only [keyword?, Option.ite_none_right_eq_some, Option.some.injEq, Prod.mk.injEq,
        List.cons.injEq]
      constructor
      · rintro ⟨h, rfl, rfl⟩
        exact ⟨⟨rfl, rfl⟩, h⟩
      · rintro ⟨⟨rfl, rfl⟩, h⟩
        exact ⟨h, rfl, rfl⟩

/-! ## Repetitions -/

/-- Trees of a class read one after the other, with a comma before each. -/
structure ReadsMore (p : NodeKind → Bool) (ts : List Token) (cs : List Tree)
    (rest : List Token) : Prop where
  tokens : ts = tokensAll cs ++ rest
  fits : ∀ c ∈ cs, c.Fits
  faces : ∃ ks : List NodeKind, (∀ k ∈ ks, p k = true) ∧ cs.map face = Face.more ks

theorem moreItems?_sound {p : NodeKind → Bool} {item : Reader} (hi : Sound p item) {fuel : Nat}
    {ts rest : List Token} {cs : List Tree} (h : moreItems? item fuel ts = some (cs, rest)) :
    ReadsMore p ts cs rest := by
  induction fuel generalizing ts cs with
  | zero =>
      obtain ⟨rfl, rfl⟩ : [] = cs ∧ ts = rest := by simpa [moreItems?] using h
      exact ⟨rfl, by simp, [], by simp⟩
  | succ fuel ih =>
      simp only [moreItems?] at h
      split at h
      · obtain ⟨rfl, rfl⟩ : [] = cs ∧ ts = rest := by simpa using h
        exact ⟨rfl, by simp, [], by simp⟩
      · next comma ts₁ hcomma =>
        split at h
        · cases h
        · next t ts₂ ht =>
          split at h <;> cases h
          next others hothers =>
          obtain ⟨rfl, hk⟩ := take?_eq_some.mp hcomma
          have ht := hi ht
          have ho := ih hothers
          obtain ⟨k, hface, hpk⟩ := ht.isOf.face_eq
          obtain ⟨ks, hks, hmap⟩ := ho.faces
          refine ⟨?_, ?_, k :: ks, ?_, ?_⟩
          · simp [ht.tokens, ho.tokens]
          · simpa using ⟨.token comma, ht.fits, ho.fits⟩
          · simpa using ⟨hpk, hks⟩
          · simp [hface, hmap, Token.face_of_kind hk]

/-- Trees of a class read one after the other, with commas between them. -/
structure ReadsListed (p : NodeKind → Bool) (ts : List Token) (cs : List Tree)
    (rest : List Token) : Prop where
  tokens : ts = tokensAll cs ++ rest
  fits : ∀ c ∈ cs, c.Fits
  faces : ∃ k ks, (∀ j ∈ k :: ks, p j = true) ∧ cs.map face = Face.listed (k :: ks)

theorem items?_eq_some {item : Reader} {fuel : Nat} {ts rest : List Token} {cs : List Tree}
    (h : items? item fuel ts = some (cs, rest)) : ∃ first others mid,
      item ts = some (first, mid) ∧ moreItems? item fuel mid = some (others, rest) ∧
      cs = first :: others := by
  grind [items?]

theorem items?_sound {p : NodeKind → Bool} {item : Reader} (hi : Sound p item) {fuel : Nat}
    {ts rest : List Token} {cs : List Tree} (h : items? item fuel ts = some (cs, rest)) :
    ReadsListed p ts cs rest := by
  obtain ⟨first, others, mid, hf, ho, rfl⟩ := items?_eq_some h
  have hf := hi hf
  have ho := moreItems?_sound hi ho
  obtain ⟨k, hface, hpk⟩ := hf.isOf.face_eq
  obtain ⟨ks, hks, hmap⟩ := ho.faces
  refine ⟨?_, ?_, k, ks, ?_, ?_⟩
  · simp [hf.tokens, ho.tokens]
  · simpa using ⟨hf.fits, ho.fits⟩
  · simpa using ⟨hpk, hks⟩
  · simp [hface, hmap, Face.listed]

/-- What one round of an extension keeps, all rounds keep. -/
theorem extend_sound {p : NodeKind → Bool} {step : Tree → Reader} {start : List Token}
    (hs : ∀ {left longer ts rest}, Reads p start left ts → step left ts = some (longer, rest) →
      Reads p start longer rest)
    {fuel : Nat} {left t : Tree} {ts rest : List Token} (h : Reads p start left ts)
    (he : extend step fuel left ts = (t, rest)) : Reads p start t rest := by
  induction fuel generalizing left ts with
  | zero =>
      obtain ⟨rfl, rfl⟩ : left = t ∧ ts = rest := by simpa [extend] using he
      exact h
  | succ fuel ih =>
      simp only [extend] at he
      split at he
      · obtain ⟨rfl, rfl⟩ : left = t ∧ ts = rest := by simpa using he
        exact h
      · next longer mid hstep => exact ih (hs h hstep) he

/-! ## Names -/

section Names

variable {type : Reader} {fuel : Nat} {ts rest : List Token} {t : Tree}

theorem typeArguments?_eq_some (h : typeArguments? type fuel ts = some (t, rest)) :
    ∃ less types greater mid, ts = less :: mid ∧ less.kind = .lessThan ∧
      items? type fuel mid = some (types, greater :: rest) ∧ greater.kind = .greaterThan ∧
      t = .node .typeArgumentList (.token less :: types ++ [.token greater]) := by
  grind [typeArguments?, take?_eq_some]

theorem simpleName?_eq_some (h : simpleName? type fuel ts = some (t, rest)) :
    ∃ ident mid, ts = ident :: mid ∧ ident.kind = .identifier ∧
      ((∃ as, typeArguments? type fuel mid = some (as, rest) ∧
          t = .node .genericName [.token ident, as]) ∨
        (mid = rest ∧ t = .node .identifierName [.token ident])) := by
  grind [simpleName?, take?_eq_some]

theorem aliasedName?_eq_some (h : aliasedName? type fuel ts = some (t, rest)) :
    ∃ ident colons right mid, ts = ident :: colons :: mid ∧ ident.kind = .identifier ∧
      colons.kind = .colonColon ∧ simpleName? type fuel mid = some (right, rest) ∧
      t = .node .aliasQualifiedName
        [.node .identifierName [.token ident], .token colons, right] := by
  grind [aliasedName?, take?_eq_some]

theorem dotName?_eq_some {k : NodeKind} {left : Tree}
    (h : dotName? k type fuel left ts = some (t, rest)) :
    ∃ dot right mid, ts = dot :: mid ∧ dot.kind = .dot ∧
      simpleName? type fuel mid = some (right, rest) ∧
      t = .node k [left, .token dot, right] := by
  grind [dotName?, take?_eq_some]

theorem typeArguments?_sound (ht : Sound NodeKind.isType type)
    (h : typeArguments? type fuel ts = some (t, rest)) :
    Reads (· == .typeArgumentList) ts t rest := by
  obtain ⟨less, types, greater, mid, rfl, hl, hi, hg, rfl⟩ := typeArguments?_eq_some h
  have hi := items?_sound ht hi
  obtain ⟨k, ks, hks, hmap⟩ := hi.faces
  refine .of_node ?_ (.typeArgumentList (List.cons_ne_nil k ks) hks) ?_ ?_ rfl
  · simp [hi.tokens]
  · simp [hmap, Token.face_of_kind hl, Token.face_of_kind hg]
  · simpa [or_imp, forall_and] using ⟨.token less, hi.fits, .token greater⟩

theorem identifierName_fits {i : Token} (hi : i.kind = .identifier) :
    (Tree.node .identifierName [.token i]).Fits :=
  .node .identifierName (by simp [Token.face_of_kind hi]) (by simpa using .token i)

theorem simpleName?_sound (ht : Sound NodeKind.isType type) :
    Sound NodeKind.isSimpleName (simpleName? type fuel) := by
  intro ts t rest h
  obtain ⟨ident, mid, rfl, hi, ⟨as, has, rfl⟩ | ⟨rfl, rfl⟩⟩ := simpleName?_eq_some h
  · have has := typeArguments?_sound ht has
    obtain ⟨k, hface, hk⟩ := has.isOf.face_eq
    obtain rfl := eq_of_beq hk
    refine .of_node ?_ .genericName ?_ ?_ rfl
    · simp [has.tokens]
    · simp [hface, Token.face_of_kind hi]
    · simpa using ⟨.token ident, has.fits⟩
  · exact ⟨by simp, identifierName_fits hi, rfl⟩

theorem aliasedName?_sound (ht : Sound NodeKind.isType type) :
    Sound (· == .aliasQualifiedName) (aliasedName? type fuel) := by
  intro ts t rest h
  obtain ⟨ident, colons, right, mid, rfl, hi, hc, hr, rfl⟩ := aliasedName?_eq_some h
  have hr := simpleName?_sound ht hr
  obtain ⟨k, hface, hk⟩ := hr.isOf.face_eq
  refine .of_node ?_ (.aliasQualifiedName hk) ?_ ?_ rfl
  · simp [hr.tokens]
  · simp [hface, Token.face_of_kind hc]
  · simpa using ⟨identifierName_fits hi, .token colons, hr.fits⟩

theorem nameStart?_sound (ht : Sound NodeKind.isType type) :
    Sound NodeKind.isNameStart (nameStart? type fuel) := by
  intro ts t rest h
  rcases Option.or_eq_some_iff.mp h with h | ⟨-, h⟩
  · exact (aliasedName?_sound ht h).mono fun hk => by cases eq_of_beq hk; rfl
  · exact (simpleName?_sound ht h).mono fun hk => by simp [NodeKind.isNameStart, hk]

/-- A dot and a simple name after `left` make a node whose rule is that of two names or of a
member. -/
theorem dotName?_sound (ht : Sound NodeKind.isType type) {p : NodeKind → Bool} {k : NodeKind}
    (ha : ∀ {l r}, p l = true → r.isSimpleName = true →
      Arranged k [.node l, .token .dot, .node r])
    (hk : p k = true) {start : List Token} {left : Tree} (hleft : Reads p start left ts)
    (h : dotName? k type fuel left ts = some (t, rest)) : Reads p start t rest := by
  obtain ⟨dot, right, mid, rfl, hd, hr, rfl⟩ := dotName?_eq_some h
  have hr := simpleName?_sound ht hr
  obtain ⟨l, hl, hpl⟩ := hleft.isOf.face_eq
  obtain ⟨r, hface, hpr⟩ := hr.isOf.face_eq
  refine .of_node ?_ (ha hpl hpr) ?_ ?_ hk
  · simp [hleft.tokens, hr.tokens]
  · simp [hl, hface, Token.face_of_kind hd]
  · simpa using ⟨hleft.fits, .token dot, hr.fits⟩

theorem name?_eq_some (h : name? type fuel ts = some (t, rest)) :
    ∃ left mid, nameStart? type fuel ts = some (left, mid) ∧
      extend (dotName? .qualifiedName type fuel) fuel left mid = (t, rest) := by
  grind [name?]

theorem name?_sound (ht : Sound NodeKind.isType type) :
    Sound NodeKind.isName (name? type fuel) := by
  intro ts t rest h
  obtain ⟨left, mid, hs, he⟩ := name?_eq_some h
  have hs := (nameStart?_sound ht hs).mono NodeKind.isName_of_isNameStart
  exact extend_sound (fun hl hd => dotName?_sound ht .qualifiedName rfl hl hd) hs he

end Names

/-! ## Types -/

section Types

variable {type : Reader} {fuel : Nat} {ts rest : List Token} {t : Tree}

theorem builtinType?_sound : Sound (· == .predefinedType) builtinType? := by
  intro ts t rest h
  obtain ⟨word, hw, rfl⟩ : ∃ word, keyword? Lexical.builtinTypes ts = some (word, rest) ∧
      t = .node .predefinedType [.token word] := by
    grind [builtinType?]
  obtain ⟨rfl, hk, hmem⟩ := keyword?_eq_some.mp hw
  refine .of_node (by simp) (.predefinedType hmem) ?_ ?_ rfl
  · simp [Token.face_of_keyword hk]
  · simpa using .token word

theorem tupleElement?_eq_some (h : tupleElement? type ts = some (t, rest)) :
    ∃ u mid, type ts = some (u, mid) ∧
      ((∃ ident, mid = ident :: rest ∧ ident.kind = .identifier ∧
          t = .node .tupleElement [u, .token ident]) ∨
        (mid = rest ∧ t = .node .tupleElement [u])) := by
  grind [tupleElement?, take?_eq_some]

theorem tupleElement?_sound (ht : Sound NodeKind.isType type) :
    Sound (· == .tupleElement) (tupleElement? type) := by
  intro ts t rest h
  obtain ⟨u, mid, hu, hmid⟩ := tupleElement?_eq_some h
  have hu := ht hu
  obtain ⟨k, hface, hk⟩ := hu.isOf.face_eq
  rcases hmid with ⟨ident, rfl, hi, rfl⟩ | ⟨rfl, rfl⟩
  · refine .of_node ?_ (.namedElement hk) ?_ ?_ rfl
    · simp [hu.tokens]
    · simp [hface, Token.face_of_kind hi]
    · simpa using ⟨hu.fits, .token ident⟩
  · refine .of_node ?_ (.tupleElement hk) ?_ ?_ rfl
    · simp [hu.tokens]
    · simp [hface]
    · simpa using hu.fits

theorem tupleType?_eq_some (h : tupleType? type fuel ts = some (t, rest)) :
    ∃ opening elements closing mid, ts = opening :: mid ∧ opening.kind = .openParen ∧
      items? (tupleElement? type) fuel mid = some (elements, closing :: rest) ∧
      2 ≤ elements.length ∧ closing.kind = .closeParen ∧
      t = .node .tupleType (.token opening :: elements ++ [.token closing]) := by
  grind [tupleType?, take?_eq_some]

theorem tupleType?_sound (ht : Sound NodeKind.isType type) :
    Sound (· == .tupleType) (tupleType? type fuel) := by
  intro ts t rest h
  obtain ⟨opening, elements, closing, mid, rfl, ho, hi, hlen, hc, rfl⟩ := tupleType?_eq_some h
  have hi := items?_sound (tupleElement?_sound ht) hi
  obtain ⟨k, ks, hks, hmap⟩ := hi.faces
  -- Two elements have a comma between them, so two trees are two elements or more.
  have hks₂ : 2 ≤ (k :: ks).length := by
    have hl : elements.length = (Face.listed (k :: ks)).length := by rw [← hmap]; simp
    cases ks with
    | nil => simp [Face.listed] at hl; omega
    | cons k' ks => simp
  refine .of_node ?_ (.tupleType hks₂ fun j hj => eq_of_beq (hks j hj)) ?_ ?_ rfl
  · simp [hi.tokens]
  · simp [hmap, Token.face_of_kind ho, Token.face_of_kind hc]
  · simpa [or_imp, forall_and] using ⟨.token opening, hi.fits, .token closing⟩

/-- All commas at the front, and no other tokens. -/
theorem commas_sound (ts : List Token) :
    ts = tokensAll (commas ts).1 ++ (commas ts).2 ∧ (∀ c ∈ (commas ts).1, c.Fits) ∧
      ∃ n, (commas ts).1.map face = List.replicate n (.token .comma) := by
  fun_induction commas ts with
  | case1 => exact ⟨rfl, by simp, 0, rfl⟩
  | case2 t ts hk others rest he ih =>
      rw [he] at ih
      obtain ⟨htok, hfits, n, hn⟩ := ih
      refine ⟨?_, ?_, n + 1, ?_⟩
      · simpa using htok
      · simpa using ⟨.token t, hfits⟩
      · simpa [List.replicate_succ, Token.face_of_kind hk] using hn
  | case3 t ts hk => exact ⟨rfl, by simp, 0, rfl⟩

theorem rankSpecifier?_eq_some (h : rankSpecifier? ts = some (t, rest)) :
    ∃ opening closing mid, ts = opening :: mid ∧ opening.kind = .openBracket ∧
      (commas mid).2 = closing :: rest ∧ closing.kind = .closeBracket ∧
      t = .node .rankSpecifier (.token opening :: (commas mid).1 ++ [.token closing]) := by
  grind [rankSpecifier?, take?_eq_some]

theorem rankSpecifier?_sound : Sound (· == .rankSpecifier) rankSpecifier? := by
  intro ts t rest h
  obtain ⟨opening, closing, mid, rfl, ho, hrest, hc, rfl⟩ := rankSpecifier?_eq_some h
  obtain ⟨htok, hfits, n, hn⟩ := commas_sound mid
  refine .of_node ?_ (.rankSpecifier n) ?_ ?_ rfl
  · rw [hrest] at htok
    simpa using htok
  · simp [hn, Token.face_of_kind ho, Token.face_of_kind hc]
  · simpa [or_imp, forall_and] using ⟨.token opening, hfits, .token closing⟩

theorem typeMark?_eq_some {left : Tree} (h : typeMark? left ts = some (t, rest)) :
    (∃ mark, ts = mark :: rest ∧ mark.kind = .question ∧
        t = .node .nullableType [left, .token mark]) ∨
      (∃ mark, ts = mark :: rest ∧ mark.kind = .asterisk ∧
        t = .node .pointerType [left, .token mark]) ∨
      (∃ rank, rankSpecifier? ts = some (rank, rest) ∧ t = .node .arrayType [left, rank]) := by
  grind [typeMark?, take?_eq_some]

theorem typeMark?_sound {start : List Token} {left : Tree}
    (hleft : Reads NodeKind.isType start left ts) (h : typeMark? left ts = some (t, rest)) :
    Reads NodeKind.isType start t rest := by
  obtain ⟨l, hl, hpl⟩ := hleft.isOf.face_eq
  rcases typeMark?_eq_some h with ⟨mark, rfl, hm, rfl⟩ | ⟨mark, rfl, hm, rfl⟩ | ⟨rank, hr, rfl⟩
  · refine .of_node (by simp [hleft.tokens]) (.nullableType hpl) ?_ ?_ rfl
    · simp [hl, Token.face_of_kind hm]
    · simpa using ⟨hleft.fits, .token mark⟩
  · refine .of_node (by simp [hleft.tokens]) (.pointerType hpl) ?_ ?_ rfl
    · simp [hl, Token.face_of_kind hm]
    · simpa using ⟨hleft.fits, .token mark⟩
  · have hr := rankSpecifier?_sound hr
    obtain ⟨r, hface, hpr⟩ := hr.isOf.face_eq
    obtain rfl := eq_of_beq hpr
    refine .of_node (by simp [hleft.tokens, hr.tokens]) (.arrayType hpl) ?_ ?_ rfl
    · simp [hl, hface]
    · simpa using ⟨hleft.fits, hr.fits⟩

theorem typeStart?_sound (ht : Sound NodeKind.isType type) :
    Sound NodeKind.isType (typeStart? type fuel) := by
  intro ts t rest h
  rcases Option.or_eq_some_iff.mp h with h | ⟨-, h⟩
  · rcases Option.or_eq_some_iff.mp h with h | ⟨-, h⟩
    · exact (builtinType?_sound h).mono fun hk => by cases eq_of_beq hk; rfl
    · exact (tupleType?_sound ht h).mono fun hk => by cases eq_of_beq hk; rfl
  · exact (name?_sound ht h).mono NodeKind.isType_of_isName

theorem type?_eq_some (h : type? (fuel + 1) ts = some (t, rest)) :
    ∃ left mid, typeStart? (type? fuel) fuel ts = some (left, mid) ∧
      extend typeMark? fuel left mid = (t, rest) := by
  grind [type?]

theorem type?_sound (fuel : Nat) : Sound NodeKind.isType (type? fuel) := by
  induction fuel with
  | zero =>
      intro ts t rest h
      simp [type?] at h
  | succ fuel ih =>
      intro ts t rest h
      obtain ⟨left, mid, hs, he⟩ := type?_eq_some h
      exact extend_sound typeMark?_sound (typeStart?_sound ih hs) he

end Types

/-! ## Expressions -/

section Expressions

variable {expr : Reader} {fuel : Nat} {ts rest : List Token} {t : Tree}

theorem typeOf?_eq_some (h : typeOf? fuel ts = some (t, rest)) :
    ∃ word opening operand closing mid, ts = word :: opening :: mid ∧
      (word.kind = .keyword ∧ word.text = "typeof") ∧ opening.kind = .openParen ∧
      type? fuel mid = some (operand, closing :: rest) ∧ closing.kind = .closeParen ∧
      t = .node .typeOf [.token word, .token opening, operand, .token closing] := by
  unfold typeOf? at h
  split at h
  · cases h
  · next word ts₁ hword =>
    obtain ⟨rfl, hw, htext⟩ := keyword?_eq_some.mp hword
    split at h
    · cases h
    · next opening ts₂ hopening =>
      obtain ⟨rfl, ho⟩ := take?_eq_some.mp hopening
      grind [take?_eq_some]

theorem typeOf?_sound : Sound (· == .typeOf) (typeOf? fuel) := by
  intro ts t rest h
  obtain ⟨word, opening, operand, closing, mid, rfl, ⟨hw, htext⟩, ho, hop, hc, rfl⟩ :=
    typeOf?_eq_some h
  have hop := type?_sound fuel hop
  obtain ⟨k, hface, hk⟩ := hop.isOf.face_eq
  refine .of_node ?_ (.typeOf hk) ?_ ?_ rfl
  · simp [hop.tokens]
  · simp [hface, Token.face_of_keyword hw, htext, Token.face_of_kind ho, Token.face_of_kind hc]
  · simpa using ⟨.token word, .token opening, hop.fits, .token closing⟩

theorem literal?_eq_some (h : literal? ts = some (t, rest)) :
    ∃ u, ts = u :: rest ∧ t = .node .literal [.token u] ∧
      (u.kind = .number ∨ u.kind = .string ∨
        (u.kind = .keyword ∧ u.text ∈ ["true", "false", "null"])) := by
  unfold literal? at h
  split at h
  · cases h
  · next u ts₁ hu =>
    obtain ⟨rfl, rfl⟩ : _ = t ∧ ts₁ = rest := by simpa using h
    simp only [Option.or_eq_some_iff, take?_eq_some, keyword?_eq_some] at hu
    grind

theorem literal?_sound : Sound (· == .literal) literal? := by
  intro ts t rest h
  obtain ⟨u, rfl, rfl, hu⟩ := literal?_eq_some h
  have hfits : ∀ c ∈ [Tree.token u], c.Fits := by simpa using .token u
  rcases hu with hu | hu | ⟨hu, hw⟩
  · exact .of_node (by simp) .number (by simp [Token.face_of_kind hu]) hfits rfl
  · exact .of_node (by simp) .string (by simp [Token.face_of_kind hu]) hfits rfl
  · exact .of_node (by simp) (.constant hw) (by simp [Token.face_of_keyword hu]) hfits rfl

theorem this?_sound : Sound (· == .this) this? := by
  intro ts t rest h
  obtain ⟨word, hw, rfl⟩ : ∃ word, keyword? ["this"] ts = some (word, rest) ∧
      t = .node .this [.token word] := by
    grind [this?]
  obtain ⟨rfl, hk, hmem⟩ := keyword?_eq_some.mp hw
  refine .of_node (by simp) .this ?_ ?_ rfl
  · simpa [Token.face_of_keyword hk] using hmem
  · simpa using .token word

theorem parenthesized?_eq_some (h : parenthesized? expr ts = some (t, rest)) :
    ∃ opening inside closing mid, ts = opening :: mid ∧ opening.kind = .openParen ∧
      expr mid = some (inside, closing :: rest) ∧ closing.kind = .closeParen ∧
      t = .node .parenthesized [.token opening, inside, .token closing] := by
  grind [parenthesized?, take?_eq_some]

theorem parenthesized?_sound (he : Sound NodeKind.isExpr expr) :
    Sound (· == .parenthesized) (parenthesized? expr) := by
  intro ts t rest h
  obtain ⟨opening, inside, closing, mid, rfl, ho, hin, hc, rfl⟩ := parenthesized?_eq_some h
  have hin := he hin
  obtain ⟨k, hface, hk⟩ := hin.isOf.face_eq
  refine .of_node ?_ (.parenthesized hk) ?_ ?_ rfl
  · simp [hin.tokens]
  · simp [hface, Token.face_of_kind ho, Token.face_of_kind hc]
  · simpa using ⟨.token opening, hin.fits, .token closing⟩

theorem primary?_sound (he : Sound NodeKind.isExpr expr) :
    Sound NodeKind.isExpr (primary? expr fuel) := by
  intro ts t rest h
  simp only [primary?, Option.or_eq_some_iff] at h
  rcases h with ((((h | ⟨-, h⟩) | ⟨-, h⟩) | ⟨-, h⟩) | ⟨-, h⟩) | ⟨-, h⟩
  · exact (typeOf?_sound h).mono fun hk => by cases eq_of_beq hk; rfl
  · exact (literal?_sound h).mono fun hk => by cases eq_of_beq hk; rfl
  · exact (this?_sound h).mono fun hk => by cases eq_of_beq hk; rfl
  · exact (parenthesized?_sound he h).mono fun hk => by cases eq_of_beq hk; rfl
  · exact (builtinType?_sound h).mono fun hk => by cases eq_of_beq hk; rfl
  · exact (nameStart?_sound (type?_sound fuel) h).mono NodeKind.isExpr_of_isNameStart

theorem argument?_sound (he : Sound NodeKind.isExpr expr) :
    Sound (· == .argument) (argument? expr) := by
  intro ts t rest h
  obtain ⟨e, hin, rfl⟩ : ∃ e, expr ts = some (e, rest) ∧ t = .node .argument [e] := by
    grind [argument?]
  have hin := he hin
  obtain ⟨k, hface, hk⟩ := hin.isOf.face_eq
  refine .of_node ?_ (.argument hk) ?_ ?_ rfl
  · simp [hin.tokens]
  · simp [hface]
  · simpa using hin.fits

theorem argumentList?_eq_some (h : argumentList? expr fuel ts = some (t, rest)) :
    ∃ opening arguments closing mid, ts = opening :: mid ∧ opening.kind = .openParen ∧
      (arguments = [] ∧ mid = closing :: rest ∨
        items? (argument? expr) fuel mid = some (arguments, closing :: rest)) ∧
      closing.kind = .closeParen ∧
      t = .node .argumentList (.token opening :: arguments ++ [.token closing]) := by
  unfold argumentList? at h
  split at h
  · cases h
  · next opening ts₁ hopening =>
    obtain ⟨rfl, ho⟩ := take?_eq_some.mp hopening
    split at h
    · split at h <;> cases h
      next closing hclosing =>
      obtain ⟨rfl, hc⟩ := take?_eq_some.mp hclosing
      exact ⟨opening, [], closing, _, rfl, ho, .inl ⟨rfl, rfl⟩, hc, rfl⟩
    · next first ts₂ hfirst =>
      split at h
      · cases h
      · next others ts₃ hothers =>
        split at h <;> cases h
        next closing hclosing =>
        obtain ⟨rfl, hc⟩ := take?_eq_some.mp hclosing
        refine ⟨opening, first :: others, closing, _, rfl, ho, .inr ?_, hc, rfl⟩
        simp [items?, hfirst, hothers]

theorem argumentList?_sound (he : Sound NodeKind.isExpr expr) :
    Sound (· == .argumentList) (argumentList? expr fuel) := by
  intro ts t rest h
  obtain ⟨opening, arguments, closing, mid, rfl, ho, ha, hc, rfl⟩ := argumentList?_eq_some h
  rcases ha with ⟨rfl, rfl⟩ | ha
  · refine .of_node (by simp) (@Arranged.argumentList [] (by simp)) ?_ ?_ rfl
    · simp [Face.listed, Token.face_of_kind ho, Token.face_of_kind hc]
    · simpa using ⟨.token opening, .token closing⟩
  · have ha := items?_sound (argument?_sound he) ha
    obtain ⟨k, ks, hks, hmap⟩ := ha.faces
    refine .of_node ?_ (.argumentList fun j hj => eq_of_beq (hks j hj)) ?_ ?_ rfl
    · simp [ha.tokens]
    · simp [hmap, Token.face_of_kind ho, Token.face_of_kind hc]
    · simpa [or_imp, forall_and] using ⟨.token opening, ha.fits, .token closing⟩

theorem suffix?_eq_some {left : Tree} (h : suffix? expr fuel left ts = some (t, rest)) :
    dotName? .memberAccess (type? fuel) fuel left ts = some (t, rest) ∨
      ∃ arguments, argumentList? expr fuel ts = some (arguments, rest) ∧
        t = .node .invocation [left, arguments] := by
  grind [suffix?]

theorem suffix?_sound (he : Sound NodeKind.isExpr expr) {start : List Token} {left : Tree}
    (hleft : Reads NodeKind.isExpr start left ts)
    (h : suffix? expr fuel left ts = some (t, rest)) : Reads NodeKind.isExpr start t rest := by
  rcases suffix?_eq_some h with h | ⟨arguments, ha, rfl⟩
  · exact dotName?_sound (type?_sound fuel) .memberAccess rfl hleft h
  · have ha := argumentList?_sound he ha
    obtain ⟨l, hl, hpl⟩ := hleft.isOf.face_eq
    obtain ⟨k, hface, hk⟩ := ha.isOf.face_eq
    obtain rfl := eq_of_beq hk
    refine .of_node ?_ (.invocation hpl) ?_ ?_ rfl
    · simp [hleft.tokens, ha.tokens]
    · simp [hl, hface]
    · simpa using ⟨hleft.fits, ha.fits⟩

theorem expr?_eq_some (h : expr? (fuel + 1) ts = some (t, rest)) :
    ∃ left mid, primary? (expr? fuel) fuel ts = some (left, mid) ∧
      extend (suffix? (expr? fuel) fuel) fuel left mid = (t, rest) := by
  grind [expr?]

theorem expr?_sound (fuel : Nat) : Sound NodeKind.isExpr (expr? fuel) := by
  induction fuel with
  | zero =>
      intro ts t rest h
      simp [expr?] at h
  | succ fuel ih =>
      intro ts t rest h
      obtain ⟨left, mid, hp, he⟩ := expr?_eq_some h
      exact extend_sound (suffix?_sound ih) (primary?_sound ih hp) he

end Expressions

/-! ## Statements -/

section Statements

variable {fuel : Nat} {ts rest : List Token} {t : Tree}

theorem using?_eq_some (h : using? fuel ts = some (t, rest)) :
    ∃ word name semi mid, ts = word :: mid ∧ (word.kind = .keyword ∧ word.text = "using") ∧
      name? (type? fuel) fuel mid = some (name, semi :: rest) ∧ semi.kind = .semicolon ∧
      t = .node .usingDirective [.token word, name, .token semi] := by
  unfold using? at h
  split at h
  · cases h
  · next word ts₁ hword =>
    obtain ⟨rfl, hw, htext⟩ := keyword?_eq_some.mp hword
    grind [take?_eq_some]

theorem using?_sound : Sound (· == .usingDirective) (using? fuel) := by
  intro ts t rest h
  obtain ⟨word, name, semi, mid, rfl, ⟨hw, htext⟩, hn, hs, rfl⟩ := using?_eq_some h
  have hn := name?_sound (type?_sound fuel) hn
  obtain ⟨k, hface, hk⟩ := hn.isOf.face_eq
  refine .of_node ?_ (.usingDirective hk) ?_ ?_ rfl
  · simp [hn.tokens]
  · simp [hface, Token.face_of_keyword hw, htext, Token.face_of_kind hs]
  · simpa using ⟨.token word, hn.fits, .token semi⟩

theorem localDeclaration?_eq_some (h : localDeclaration? fuel ts = some (t, rest)) :
    ∃ type ident equals value semi mid,
      type? fuel ts = some (type, ident :: equals :: mid) ∧ ident.kind = .identifier ∧
      equals.kind = .equals ∧ expr? fuel mid = some (value, semi :: rest) ∧
      semi.kind = .semicolon ∧
      t = .node .localDeclaration
        [type, .token ident, .token equals, value, .token semi] := by
  unfold localDeclaration? at h
  split at h
  · cases h
  · next type ts₁ htype =>
    split at h
    · cases h
    · next ident ts₂ hident =>
      obtain ⟨rfl, hi⟩ := take?_eq_some.mp hident
      split at h
      · cases h
      · next equals ts₃ hequals =>
        obtain ⟨rfl, he⟩ := take?_eq_some.mp hequals
        grind [take?_eq_some]

theorem localDeclaration?_sound : Sound (· == .localDeclaration) (localDeclaration? fuel) := by
  intro ts t rest h
  obtain ⟨type, ident, equals, value, semi, mid, ht, hi, he, hv, hs, rfl⟩ :=
    localDeclaration?_eq_some h
  have ht := type?_sound fuel ht
  have hv := expr?_sound fuel hv
  obtain ⟨k, hface, hk⟩ := ht.isOf.face_eq
  obtain ⟨e, hface', hk'⟩ := hv.isOf.face_eq
  refine .of_node ?_ (.localDeclaration hk hk') ?_ ?_ rfl
  · simp [ht.tokens, hv.tokens]
  · simp [hface, hface', Token.face_of_kind hi, Token.face_of_kind he, Token.face_of_kind hs]
  · simpa using ⟨ht.fits, .token ident, .token equals, hv.fits, .token semi⟩

theorem expressionStatement?_eq_some (h : expressionStatement? fuel ts = some (t, rest)) :
    ∃ e semi, expr? fuel ts = some (e, semi :: rest) ∧ semi.kind = .semicolon ∧
      t = .node .expressionStatement [e, .token semi] := by
  grind [expressionStatement?, take?_eq_some]

theorem expressionStatement?_sound :
    Sound (· == .expressionStatement) (expressionStatement? fuel) := by
  intro ts t rest h
  obtain ⟨e, semi, he, hs, rfl⟩ := expressionStatement?_eq_some h
  have he := expr?_sound fuel he
  obtain ⟨k, hface, hk⟩ := he.isOf.face_eq
  refine .of_node ?_ (.expressionStatement hk) ?_ ?_ rfl
  · simp [he.tokens]
  · simp [hface, Token.face_of_kind hs]
  · simpa using ⟨he.fits, .token semi⟩

theorem statement?_sound (fuel : Nat) : Sound NodeKind.isStatement (statement? fuel) := by
  intro ts t rest h
  rcases Option.or_eq_some_iff.mp h with h | ⟨-, h⟩
  · rcases Option.or_eq_some_iff.mp h with h | ⟨-, h⟩
    · exact (using?_sound h).mono fun hk => by cases eq_of_beq hk; rfl
    · exact (localDeclaration?_sound h).mono fun hk => by cases eq_of_beq hk; rfl
  · exact (expressionStatement?_sound h).mono fun hk => by cases eq_of_beq hk; rfl

/-- A run of trees of a class takes exactly their tokens. -/
theorem many_sound {p : NodeKind → Bool} {item : Reader} (hi : Sound p item) {cs : List Tree}
    (h : many item fuel ts = (cs, rest)) :
    ts = tokensAll cs ++ rest ∧ ∀ c ∈ cs, FitsAs p c := by
  induction fuel generalizing ts cs with
  | zero =>
      obtain ⟨rfl, rfl⟩ : [] = cs ∧ ts = rest := by simpa [many] using h
      simp
  | succ fuel ih =>
      simp only [many] at h
      split at h
      · obtain ⟨rfl, rfl⟩ : [] = cs ∧ ts = rest := by simpa using h
        simp
      · next t mid ht =>
        have ht := hi ht
        rcases hm : many item fuel mid with ⟨others, rest'⟩
        obtain ⟨rfl, rfl⟩ : t :: others = cs ∧ rest' = rest := by simpa [hm] using h
        obtain ⟨htok, hall⟩ := ih hm
        refine ⟨by simp [ht.tokens, htok], ?_⟩
        simpa using ⟨⟨ht.fits, ht.isOf⟩, hall⟩

end Statements

end CallFill.Grammar
