import CallFill.Proofs.Derivation

/-!
# The reader accepts the grammar

Tokens whose texts are derived from a phrase are the tokens of a fitting tree.  A name may be put
together as a name or as an expression, a suffix and a mark go on the right of any expression or
type.  With the reader finding every fitting tree and giving nothing else, a text is read just
when it can be cut into texts that the grammar derives.
-/

namespace CallFill.Grammar

open CallFill.Tree CallFill.Lexical

/-! ## The kinds of spelled tokens -/

theorem kind_of_mark {t : Token} {k : TokenKind} {s : String} (h : t.Spelled) (ht : t.text = s)
    (hs : mark? k = some s) : t.kind = k := by
  refine Lexeme.kind_unique h (.mark ?_)
  rw [ht, String.ofList_toList, hs]

theorem kind_of_isIdentifier {t : Token} (h : t.Spelled) (hi : IsIdentifier t.text) :
    t.kind = .identifier := by
  obtain ⟨hw, hb, hr⟩ := hi
  have hkind : wordKind t.text = .identifier := by
    refine wordKind_eq_identifier.mpr ?_
    simp [isReserved, hb, hr]
  have hword := Lexeme.word (longest_nil hw)
  rw [String.ofList_toList, hkind] at hword
  exact Lexeme.kind_unique h hword

theorem kind_of_keyword {t : Token} (h : t.Spelled) (hw : t.text ∈ builtinTypes ++ reservedWords) :
    t.kind = .keyword := by
  have hwords : ∀ w ∈ builtinTypes ++ reservedWords,
      lexeme? w.toList = some (.keyword, w.toList, []) := by decide +kernel
  exact Lexeme.kind_unique h (lexeme?_eq_some.mp (hwords _ hw)).2

theorem kind_of_isLiteral {t : Token} (h : t.Spelled) (hl : IsLiteral t.text) :
    t.kind = .number ∨ t.kind = .string ∨
      (t.kind = .keyword ∧ t.text ∈ ["true", "false", "null"]) := by
  rcases hl with hn | ⟨tail, htail, hs⟩ | hw
  · exact .inl (Lexeme.kind_unique h (.number (longest_nil hn)))
  · refine .inr (.inl (Lexeme.kind_unique h ?_))
    rw [htail]
    exact .string hs
  · have hsub : ∀ w ∈ ["true", "false", "null"], w ∈ builtinTypes ++ reservedWords := by decide
    exact .inr (.inr ⟨kind_of_keyword h (hsub _ hw), hw⟩)

theorem face_of_mark {t : Token} {s : String} (k : TokenKind) (h : t.Spelled) (ht : t.text = s)
    (hs : mark? k = some s) : t.face = .token k := by
  refine Token.face_of_kind (kind_of_mark h ht hs) ?_
  rintro rfl
  cases hs

theorem face_of_isIdentifier {t : Token} (h : t.Spelled) (hi : IsIdentifier t.text) :
    t.face = .token .identifier := Token.face_of_kind (kind_of_isIdentifier h hi) (by decide)

theorem face_of_word {t : Token} {w : String} (h : t.Spelled) (ht : t.text = w)
    (hw : w ∈ builtinTypes ++ reservedWords) : t.face = .word w := by
  rw [Token.face_of_keyword (kind_of_keyword h (ht ▸ hw)), ht]

/-! ## Trees over given tokens -/

/-- The tokens are those of a fitting tree of a class. -/
def Holds (p : NodeKind → Bool) (ts : List Token) : Prop := ∃ t, FitsAs p t ∧ t.tokens = ts

theorem Holds.mono {p q : NodeKind → Bool} {ts : List Token} (h : Holds p ts)
    (hpq : ∀ {k}, p k = true → q k = true) : Holds q ts := by
  obtain ⟨t, ht, rfl⟩ := h
  exact ⟨t, ht.mono hpq, rfl⟩

theorem holds_of_kind {p : NodeKind → Bool} {k : NodeKind} {ts : List Token}
    (h : Holds (· == k) ts) (hk : p k = true) : Holds p ts :=
  h.mono fun hj => by rwa [eq_of_beq hj]

theorem holds_node {p : NodeKind → Bool} {k : NodeKind} {fs : List Face} {cs : List Tree}
    (ha : Arranged k fs) (hf : cs.map face = fs) (hc : ∀ c ∈ cs, c.Fits) (hp : p k = true) :
    Holds p (tokensAll cs) :=
  ⟨.node k cs, ⟨.node ha hf hc, hp⟩, tokens_node k cs⟩

/-- What the tokens of a phrase are the tokens of. -/
def Yields : Phrase → List Token → Prop
  | .unit, ts => ∃ ss, (∀ s ∈ ss, FitsAs NodeKind.isStatement s) ∧ tokensAll ss = ts
  | .statement, ts => Holds NodeKind.isStatement ts
  | .expr, ts | .primary, ts => Holds NodeKind.isExpr ts
  | .suffix, ts => ∀ e, FitsAs NodeKind.isExpr e → Holds NodeKind.isExpr (e.tokens ++ ts)
  | .arguments, ts => Holds (· == .argumentList) ts
  | .type, ts => Holds NodeKind.isType ts
  | .mark, ts => ∀ l, FitsAs NodeKind.isType l → Holds NodeKind.isType (l.tokens ++ ts)
  | .builtin, ts => Holds (· == .predefinedType) ts
  | .name, ts => Holds NodeKind.isName ts ∧ Holds NodeKind.isExpr ts
  | .simpleName, ts => Holds NodeKind.isSimpleName ts
  | .typeArguments, ts => Holds (· == .typeArgumentList) ts
  | .tuple, ts => Holds (· == .tupleType) ts
  | .element, ts => Holds (· == .tupleElement) ts

/-- All spelled tokens with these texts yield the phrase. -/
def YieldsTexts (φ : Phrase) (ws : List String) : Prop :=
  ∀ ts : List Token, (∀ t ∈ ts, t.Spelled) → ts.map Token.text = ws → Yields φ ts

/-! ## Repetitions -/

theorem exists_of_flatten {p : NodeKind → Bool} {φ : Phrase}
    (hφ : ∀ ts, Yields φ ts → ∀ e, FitsAs p e → Holds p (e.tokens ++ ts)) {ss : List (List String)}
    (h : ∀ s ∈ ss, YieldsTexts φ s) {ts : List Token} (hs : ∀ t ∈ ts, t.Spelled)
    (ht : ts.map Token.text = ss.flatten) {e : Tree} (he : FitsAs p e) :
    Holds p (e.tokens ++ ts) := by
  induction ss generalizing e ts with
  | nil =>
      obtain rfl : ts = [] := by simpa using ht
      exact ⟨e, he, by simp⟩
  | cons s ss ih =>
      obtain ⟨us, vs, rfl, hus, hvs⟩ := List.map_eq_append_iff.mp (ht.trans List.flatten_cons)
      rw [List.forall_mem_append] at hs
      obtain ⟨u, hu, htok⟩ := hφ us (h s (by simp) us hs.1 hus) e he
      have hrest := ih (fun s hs => h s (by simp [hs])) hs.2 hvs hu
      rwa [htok, List.append_assoc] at hrest

theorem exists_of_commas {p : NodeKind → Bool} {φ : Phrase} (hφ : ∀ ts, Yields φ ts → Holds p ts)
    {wss : List (List String)} (h : ∀ ws ∈ wss, YieldsTexts φ ws) {ts : List Token}
    (hs : ∀ t ∈ ts, t.Spelled) (ht : ts.map Token.text = more "," wss) :
    ∃ cs, MoreOf p cs ∧ tokensAll cs = ts := by
  induction wss generalizing ts with
  | nil =>
      obtain rfl : ts = [] := by simpa using ht
      exact ⟨[], .nil, rfl⟩
  | cons ws wss ih =>
      rw [more_cons, List.cons_append, List.map_eq_cons_iff] at ht
      obtain ⟨comma, us, rfl, hcomma, hus⟩ := ht
      obtain ⟨vs, us, rfl, hvs, hrest⟩ := List.map_eq_append_iff.mp hus
      simp only [List.forall_mem_cons, List.forall_mem_append] at hs
      obtain ⟨u, hu, rfl⟩ := hφ vs (h ws (by simp) vs hs.2.1 hvs)
      obtain ⟨cs, hcs, rfl⟩ := ih (fun ws hws => h ws (by simp [hws])) hs.2.2 hrest
      exact ⟨.token comma :: u :: cs, .cons (kind_of_mark hs.1 hcomma rfl) hu hcs, by simp⟩

/-- Simple names behind dots go on the right of any tree of a class that takes one. -/
theorem exists_of_dots {p : NodeKind → Bool}
    (hstep : ∀ l dot r, FitsAs p l → dot.kind = .dot → FitsAs NodeKind.isSimpleName r →
      Holds p (l.tokens ++ dot :: r.tokens))
    {ns : List (List String)} (h : ∀ n ∈ ns, YieldsTexts .simpleName n) {ts : List Token}
    (hs : ∀ t ∈ ts, t.Spelled) (ht : ts.map Token.text = more "." ns) {l : Tree}
    (hl : FitsAs p l) : Holds p (l.tokens ++ ts) := by
  induction ns generalizing l ts with
  | nil =>
      obtain rfl : ts = [] := by simpa using ht
      exact ⟨l, hl, by simp⟩
  | cons n ns ih =>
      rw [more_cons, List.cons_append, List.map_eq_cons_iff] at ht
      obtain ⟨dot, us, rfl, hdot, hus⟩ := ht
      obtain ⟨vs, us, rfl, hvs, hns⟩ := List.map_eq_append_iff.mp hus
      simp only [List.forall_mem_cons, List.forall_mem_append] at hs
      obtain ⟨r, hr, rfl⟩ := h n (by simp) vs hs.2.1 hvs
      obtain ⟨u, hu, htok⟩ := hstep l dot r hl (kind_of_mark hs.1 hdot rfl) hr
      have hrest := ih (fun n hn => h n (by simp [hn])) hs.2.2 hns hu
      rwa [htok, List.append_assoc, List.cons_append] at hrest

theorem exists_of_statements {ss : List (List String)} (h : ∀ s ∈ ss, YieldsTexts .statement s) :
    YieldsTexts .unit ss.flatten := by
  intro ts hs ht
  induction ss generalizing ts with
  | nil =>
      obtain rfl : ts = [] := by simpa using ht
      exact ⟨[], by simp, rfl⟩
  | cons s ss ih =>
      obtain ⟨us, vs, rfl, hus, hvs⟩ := List.map_eq_append_iff.mp (ht.trans List.flatten_cons)
      rw [List.forall_mem_append] at hs
      obtain ⟨t, hfit, rfl⟩ := h s (by simp) us hs.1 hus
      obtain ⟨trees, htrees, rfl⟩ := ih (fun s hs => h s (by simp [hs])) vs hs.2 hvs
      exact ⟨t :: trees, by simpa using ⟨hfit, htrees⟩, by simp⟩

/-! ## One more part at the end -/

theorem holds_qualifiedName {l r : Tree} {dot : Token} (hl : FitsAs NodeKind.isName l)
    (hd : dot.kind = .dot) (hr : FitsAs NodeKind.isSimpleName r) :
    Holds NodeKind.isName (l.tokens ++ dot :: r.tokens) := by
  obtain ⟨k, hk, hkp⟩ := hl.isOf.face_eq
  obtain ⟨j, hj, hjp⟩ := hr.isOf.face_eq
  have hfits : ∀ c ∈ [l, .token dot, r], c.Fits := by
    simpa using ⟨hl.fits, .token dot, hr.fits⟩
  simpa using holds_node (p := NodeKind.isName) (.qualifiedName hkp hjp)
    (by simp [hk, hj, Token.face_of_kind hd]) hfits rfl

theorem holds_memberAccess {e r : Tree} {dot : Token} (he : FitsAs NodeKind.isExpr e)
    (hd : dot.kind = .dot) (hr : FitsAs NodeKind.isSimpleName r) :
    Holds NodeKind.isExpr (e.tokens ++ dot :: r.tokens) := by
  obtain ⟨k, hk, hkp⟩ := he.isOf.face_eq
  obtain ⟨j, hj, hjp⟩ := hr.isOf.face_eq
  have hfits : ∀ c ∈ [e, .token dot, r], c.Fits := by
    simpa using ⟨he.fits, .token dot, hr.fits⟩
  simpa using holds_node (p := NodeKind.isExpr) (.memberAccess hkp hjp)
    (by simp [hk, hj, Token.face_of_kind hd]) hfits rfl

theorem holds_invocation {e as : Tree} (he : FitsAs NodeKind.isExpr e)
    (ha : FitsAs (· == .argumentList) as) : Holds NodeKind.isExpr (e.tokens ++ as.tokens) := by
  obtain ⟨k, hk, hkp⟩ := he.isOf.face_eq
  obtain ⟨j, hj, hjp⟩ := ha.isOf.face_eq
  obtain rfl : j = .argumentList := by simpa using hjp
  have hfits : ∀ c ∈ [e, as], c.Fits := by simpa using ⟨he.fits, ha.fits⟩
  simpa using holds_node (p := NodeKind.isExpr) (.invocation hkp) (by simp [hk, hj]) hfits rfl

theorem holds_marked {l : Tree} {mark : Token} (hl : FitsAs NodeKind.isType l)
    (hm : mark.kind = .question ∨ mark.kind = .asterisk) :
    Holds NodeKind.isType (l.tokens ++ [mark]) := by
  obtain ⟨k, hk, hkp⟩ := hl.isOf.face_eq
  have hfits : ∀ c ∈ [l, .token mark], c.Fits := by simpa using ⟨hl.fits, .token mark⟩
  rcases hm with hm | hm
  · simpa using holds_node (p := NodeKind.isType) (.nullableType hkp)
      (by simp [hk, Token.face_of_kind hm]) hfits rfl
  · simpa using holds_node (p := NodeKind.isType) (.pointerType hkp)
      (by simp [hk, Token.face_of_kind hm]) hfits rfl

theorem fits_rankSpecifier {opening closing : Token} {commas : List Token}
    (ho : opening.kind = .openBracket) (hcl : closing.kind = .closeBracket)
    (hcs : ∀ c ∈ commas, c.kind = .comma) :
    (Tree.node .rankSpecifier (.token opening :: commas.map .token ++ [.token closing])).Fits := by
  refine .node (.rankSpecifier commas.length) ?_ ?_
  · have hfaces : (commas.map Tree.token).map face =
        List.replicate commas.length (.token .comma) := by
      rw [List.map_map, List.map_eq_replicate_iff]
      exact fun c hc => Token.face_of_kind (hcs c hc) (by decide)
    simp [hfaces, Token.face_of_kind ho, Token.face_of_kind hcl]
  · intro c hc
    simp only [List.cons_append, List.mem_cons, List.mem_append, List.mem_map, List.not_mem_nil,
      or_false] at hc
    rcases hc with rfl | ⟨c, -, rfl⟩ | rfl <;> exact .token _

theorem holds_array {l : Tree} {opening closing : Token} {commas : List Token}
    (hl : FitsAs NodeKind.isType l) (ho : opening.kind = .openBracket)
    (hcl : closing.kind = .closeBracket) (hcs : ∀ c ∈ commas, c.kind = .comma) :
    Holds NodeKind.isType (l.tokens ++ opening :: (commas ++ [closing])) := by
  obtain ⟨k, hk, hkp⟩ := hl.isOf.face_eq
  have hrank := fits_rankSpecifier ho hcl hcs
  have hfits : ∀ c ∈ [l, .node .rankSpecifier (.token opening :: commas.map .token ++
      [.token closing])], c.Fits := by simpa using ⟨hl.fits, hrank⟩
  simpa [tokensAll_map_token] using
    holds_node (p := NodeKind.isType) (.arrayType hkp) (by simp [hk]) hfits rfl

/-! ## Lists between brackets -/

/-- A fitting node with brackets around its other children. -/
theorem holds_enclosed {q : NodeKind → Bool} {kind : NodeKind} {k l : TokenKind} {a b : Token}
    {fs : List Face} {cs : List Tree}
    (harr : Arranged kind (.token k :: fs ++ [.token l])) (hq : q kind = true)
    (ha : a.face = .token k) (hb : b.face = .token l) (hcs : cs.map face = fs)
    (hfits : ∀ c ∈ cs, c.Fits) : Holds q (a :: (tokensAll cs ++ [b])) := by
  rw [← tokensAll_enclosed]
  refine holds_node harr (by simp [ha, hb, hcs]) ?_ hq
  intro c hc
  simp only [List.cons_append, List.mem_cons, List.mem_append, List.not_mem_nil, or_false] at hc
  rcases hc with rfl | hc | rfl
  · exact .token a
  · exact hfits c hc
  · exact .token b

theorem holds_arguments {opening closing : Token} {cs : List Tree}
    (ho : opening.kind = .openParen) (hcl : closing.kind = .closeParen)
    (hcs : ListOf (· == .argument) cs) :
    Holds (· == .argumentList) (opening :: (tokensAll cs ++ [closing])) := by
  obtain ⟨hfits, ks, -, hks, hmap⟩ := hcs.faces
  exact holds_enclosed (.argumentList fun k hk => by simpa using hks k hk) rfl
    (Token.face_of_kind ho (by decide)) (Token.face_of_kind hcl (by decide)) hmap hfits

theorem holds_typeArguments {less greater : Token} {cs : List Tree}
    (hl : less.kind = .lessThan) (hg : greater.kind = .greaterThan)
    (hcs : ListOf NodeKind.isType cs) :
    Holds (· == .typeArgumentList) (less :: (tokensAll cs ++ [greater])) := by
  obtain ⟨hfits, ks, hne, hks, hmap⟩ := hcs.faces
  exact holds_enclosed (.typeArgumentList hne hks) rfl
    (Token.face_of_kind hl (by decide)) (Token.face_of_kind hg (by decide)) hmap hfits

theorem holds_tuple {opening closing : Token} {t : Tree} {ts : List Tree}
    (ho : opening.kind = .openParen) (hcl : closing.kind = .closeParen)
    (ht : FitsAs (· == .tupleElement) t) (hts : MoreOf (· == .tupleElement) ts) (hne : ts ≠ []) :
    Holds (· == .tupleType) (opening :: (tokensAll (t :: ts) ++ [closing])) := by
  obtain ⟨hfits, ks, hks, hmap, hlen⟩ := hts.faces
  obtain ⟨k, hface, hk⟩ := ht.isOf.face_eq
  have hpos : 0 < ts.length := List.length_pos_iff.mpr hne
  have htwo : 2 ≤ (k :: ks).length := by
    rw [List.length_cons]
    omega
  have hall : ∀ j ∈ k :: ks, j = .tupleElement := by
    rw [List.forall_mem_cons]
    exact ⟨by simpa using hk, fun j hj => by simpa using hks j hj⟩
  exact holds_enclosed (.tupleType htwo hall) rfl (Token.face_of_kind ho (by decide))
    (Token.face_of_kind hcl (by decide)) (by simp [hface, hmap, Face.listed])
    (by simpa using ⟨ht.fits, hfits⟩)

/-! ## Every derivation is a tree -/

section Texts

variable {ws : List String} {ts : List Token}

/-- The tokens over a text and the texts after it. -/
theorem exists_cons_of_texts {w : String} (h : ts.map Token.text = w :: ws)
    (hs : ∀ t ∈ ts, t.Spelled) : ∃ t us, ts = t :: us ∧ t.text = w ∧ t.Spelled ∧
      us.map Token.text = ws ∧ ∀ u ∈ us, u.Spelled := by
  obtain ⟨t, us, rfl, ht, hus⟩ := List.map_eq_cons_iff.mp h
  rw [List.forall_mem_cons] at hs
  exact ⟨t, us, rfl, ht, hs.1, hus, hs.2⟩

theorem exists_append_of_texts {us : List String} (h : ts.map Token.text = ws ++ us)
    (hs : ∀ t ∈ ts, t.Spelled) : ∃ as bs, ts = as ++ bs ∧ as.map Token.text = ws ∧
      (∀ a ∈ as, a.Spelled) ∧ bs.map Token.text = us ∧ ∀ b ∈ bs, b.Spelled := by
  obtain ⟨as, bs, rfl, has, hbs⟩ := List.map_eq_append_iff.mp h
  rw [List.forall_mem_append] at hs
  exact ⟨as, bs, rfl, has, hs.1, hbs, hs.2⟩

theorem eq_singleton_of_texts {w : String} (h : ts.map Token.text = [w])
    (hs : ∀ t ∈ ts, t.Spelled) : ∃ t, ts = [t] ∧ t.text = w ∧ t.Spelled := by
  obtain ⟨t, us, rfl, ht, hts, hus, -⟩ := exists_cons_of_texts h hs
  obtain rfl : us = [] := by simpa using hus
  exact ⟨t, rfl, ht, hts⟩

/-- The trees of a list with commas between two marks. -/
theorem exists_enclosed {p : NodeKind → Bool} {φ : Phrase} (hφ : ∀ ts, Yields φ ts → Holds p ts)
    {wss : List (List String)} (ih : YieldsTexts φ ws) (ihs : ∀ us ∈ wss, YieldsTexts φ us)
    {a b : String} (h : ts.map Token.text = a :: (ws ++ more "," wss ++ [b]))
    (hs : ∀ t ∈ ts, t.Spelled) : ∃ x t cs y, ts = x :: (tokensAll (t :: cs) ++ [y]) ∧
      (x.text = a ∧ x.Spelled) ∧ FitsAs p t ∧ MoreOf p cs ∧ (y.text = b ∧ y.Spelled) ∧
      (tokensAll cs).map Token.text = more "," wss := by
  obtain ⟨x, us, rfl, hx, hsx, hus, hs⟩ := exists_cons_of_texts h hs
  obtain ⟨us, vs, rfl, hall, hsu, hvs, hs⟩ := exists_append_of_texts hus hs
  obtain ⟨y, rfl, hy, hsy⟩ := eq_singleton_of_texts hvs hs
  obtain ⟨as, bs, rfl, has, hsa, hbs, hsb⟩ := exists_append_of_texts hall hsu
  obtain ⟨t, ht, rfl⟩ := hφ as (ih as hsa has)
  obtain ⟨cs, hcs, rfl⟩ := exists_of_commas hφ ihs hsb hbs
  exact ⟨x, t, cs, y, by simp, ⟨hx, hsx⟩, ht, hcs, ⟨hy, hsy⟩, hbs⟩

end Texts

section Statements

theorem yields_usingName {n : List String} (ih : YieldsTexts .name n) :
    YieldsTexts .statement ("using" :: (n ++ [";"])) := by
  intro ts hs ht
  obtain ⟨word, us, rfl, hw, hsw, hus, hs⟩ := exists_cons_of_texts ht hs
  obtain ⟨ns, vs, rfl, hns, hsn, hvs, hs⟩ := exists_append_of_texts hus hs
  obtain ⟨semi, rfl, hse, hss⟩ := eq_singleton_of_texts hvs hs
  obtain ⟨⟨n, hn, rfl⟩, -⟩ := ih ns hsn hns
  obtain ⟨k, hk, hkp⟩ := hn.isOf.face_eq
  have hword := face_of_word hsw hw (by decide)
  have hsemi := face_of_mark .semicolon hss hse rfl
  have hfits : ∀ c ∈ [.token word, n, .token semi], c.Fits := by
    simpa using ⟨.token word, hn.fits, .token semi⟩
  simpa [Yields] using holds_node (p := NodeKind.isStatement) (.usingDirective hkp)
    (by simp [hword, hk, hsemi]) hfits rfl

theorem yields_declaration {t e : List String} {i : String} (iht : YieldsTexts .type t)
    (hi : IsIdentifier i) (ihe : YieldsTexts .expr e) :
    YieldsTexts .statement (t ++ i :: "=" :: (e ++ [";"])) := by
  intro ts hs ht
  obtain ⟨as, us, rfl, has, hsa, hus, hs⟩ := exists_append_of_texts ht hs
  obtain ⟨ident, us, rfl, rfl, hsi, hus, hs⟩ := exists_cons_of_texts hus hs
  obtain ⟨equals, us, rfl, hq, hsq, hus, hs⟩ := exists_cons_of_texts hus hs
  obtain ⟨bs, vs, rfl, hbs, hsb, hvs, hs⟩ := exists_append_of_texts hus hs
  obtain ⟨semi, rfl, hse, hss⟩ := eq_singleton_of_texts hvs hs
  obtain ⟨u, hu, rfl⟩ := iht as hsa has
  obtain ⟨e, he, rfl⟩ := ihe bs hsb hbs
  obtain ⟨k, hk, hkp⟩ := hu.isOf.face_eq
  obtain ⟨j, hj, hjp⟩ := he.isOf.face_eq
  have hident := face_of_isIdentifier hsi hi
  have hequals := face_of_mark .equals hsq hq rfl
  have hsemi := face_of_mark .semicolon hss hse rfl
  have hfits : ∀ c ∈ [u, .token ident, .token equals, e, .token semi], c.Fits := by
    simpa using ⟨hu.fits, .token ident, .token equals, he.fits, .token semi⟩
  simpa [Yields] using holds_node (p := NodeKind.isStatement) (.localDeclaration hkp hjp)
    (by simp [hk, hident, hequals, hj, hsemi]) hfits rfl

theorem yields_expression {e : List String} (ih : YieldsTexts .expr e) :
    YieldsTexts .statement (e ++ [";"]) := by
  intro ts hs ht
  obtain ⟨as, us, rfl, has, hsa, hus, hs⟩ := exists_append_of_texts ht hs
  obtain ⟨semi, rfl, hse, hss⟩ := eq_singleton_of_texts hus hs
  obtain ⟨e, he, rfl⟩ := ih as hsa has
  obtain ⟨k, hk, hkp⟩ := he.isOf.face_eq
  have hsemi := face_of_mark .semicolon hss hse rfl
  have hfits : ∀ c ∈ [e, .token semi], c.Fits := by simpa using ⟨he.fits, .token semi⟩
  simpa [Yields] using holds_node (p := NodeKind.isStatement) (.expressionStatement hkp)
    (by simp [hk, hsemi]) hfits rfl

end Statements

section Expressions

theorem yields_expr {p : List String} {ss : List (List String)} (ih : YieldsTexts .primary p)
    (ihs : ∀ s ∈ ss, YieldsTexts .suffix s) : YieldsTexts .expr (p ++ ss.flatten) := by
  intro ts hs ht
  obtain ⟨as, us, rfl, has, hsa, hus, hsu⟩ := exists_append_of_texts ht hs
  obtain ⟨e, he, rfl⟩ := ih as hsa has
  have hsuffix : ∀ ts, Yields .suffix ts → ∀ e, FitsAs NodeKind.isExpr e →
      Holds NodeKind.isExpr (e.tokens ++ ts) := fun _ h => h
  exact exists_of_flatten hsuffix ihs hsu hus he

theorem yields_member {n : List String} (ih : YieldsTexts .simpleName n) :
    YieldsTexts .suffix ("." :: n) := by
  intro ts hs ht e he
  obtain ⟨dot, us, rfl, hd, hsd, hus, hs⟩ := exists_cons_of_texts ht hs
  obtain ⟨r, hr, rfl⟩ := ih us hs hus
  exact holds_memberAccess he (kind_of_mark hsd hd rfl) hr

theorem yields_call {as : List String} (ih : YieldsTexts .arguments as) :
    YieldsTexts .suffix as := by
  intro ts hs ht e he
  obtain ⟨a, ha, rfl⟩ := ih ts hs ht
  exact holds_invocation he ha

theorem holds_typeOf {t : List String} (ih : YieldsTexts .type t) {ts : List Token}
    (hs : ∀ t ∈ ts, t.Spelled) (ht : ts.map Token.text = "typeof" :: "(" :: (t ++ [")"])) :
    Holds (· == .typeOf) ts := by
  obtain ⟨word, us, rfl, hw, hsw, hus, hs⟩ := exists_cons_of_texts ht hs
  obtain ⟨opening, us, rfl, ho, hso, hus, hs⟩ := exists_cons_of_texts hus hs
  obtain ⟨as, vs, rfl, has, hsa, hvs, hs⟩ := exists_append_of_texts hus hs
  obtain ⟨closing, rfl, hc, hsc⟩ := eq_singleton_of_texts hvs hs
  obtain ⟨u, hu, rfl⟩ := ih as hsa has
  obtain ⟨k, hk, hkp⟩ := hu.isOf.face_eq
  have hword := face_of_word hsw hw (by decide)
  have hopen := face_of_mark .openParen hso ho rfl
  have hclose := face_of_mark .closeParen hsc hc rfl
  have hfits : ∀ c ∈ [.token word, .token opening, u, .token closing], c.Fits := by
    simpa using ⟨.token word, .token opening, hu.fits, .token closing⟩
  simpa using holds_node (p := (· == .typeOf)) (.typeOf hkp)
    (by simp [hword, hopen, hk, hclose]) hfits rfl

theorem yields_typeOf {t : List String} (ih : YieldsTexts .type t) :
    YieldsTexts .primary ("typeof" :: "(" :: (t ++ [")"])) :=
  fun _ hs ht => holds_of_kind (holds_typeOf ih hs ht) rfl

theorem yields_literal {w : String} (hw : IsLiteral w) : YieldsTexts .primary [w] := by
  intro ts hs ht
  obtain ⟨u, rfl, rfl, hu⟩ := eq_singleton_of_texts ht hs
  have hfits : ∀ c ∈ [Tree.token u], c.Fits := by simpa using Fits.token u
  rcases kind_of_isLiteral hu hw with hk | hk | ⟨hk, hw⟩
  · simpa [Yields] using holds_node (p := NodeKind.isExpr) .number
      (by simp [Token.face_of_kind hk]) hfits rfl
  · simpa [Yields] using holds_node (p := NodeKind.isExpr) .string
      (by simp [Token.face_of_kind hk]) hfits rfl
  · simpa [Yields] using holds_node (p := NodeKind.isExpr) (.constant hw)
      (by simp [Token.face_of_keyword hk]) hfits rfl

theorem yields_this : YieldsTexts .primary ["this"] := by
  intro ts hs ht
  obtain ⟨w, rfl, hw, hsw⟩ := eq_singleton_of_texts ht hs
  have hword := face_of_word hsw hw (by decide)
  have hfits : ∀ c ∈ [Tree.token w], c.Fits := by simpa using Fits.token w
  simpa [Yields] using holds_node (p := NodeKind.isExpr) .this (by simp [hword]) hfits rfl

theorem yields_parenthesized {e : List String} (ih : YieldsTexts .expr e) :
    YieldsTexts .primary ("(" :: (e ++ [")"])) := by
  intro ts hs ht
  obtain ⟨opening, us, rfl, ho, hso, hus, hs⟩ := exists_cons_of_texts ht hs
  obtain ⟨as, vs, rfl, has, hsa, hvs, hs⟩ := exists_append_of_texts hus hs
  obtain ⟨closing, rfl, hc, hsc⟩ := eq_singleton_of_texts hvs hs
  obtain ⟨e, he, rfl⟩ := ih as hsa has
  obtain ⟨k, hk, hkp⟩ := he.isOf.face_eq
  have hopen := face_of_mark .openParen hso ho rfl
  have hclose := face_of_mark .closeParen hsc hc rfl
  have hfits : ∀ c ∈ [.token opening, e, .token closing], c.Fits := by
    simpa using ⟨.token opening, he.fits, .token closing⟩
  simpa [Yields] using holds_node (p := NodeKind.isExpr) (.parenthesized hkp)
    (by simp [hopen, hk, hclose]) hfits rfl

theorem yields_noArguments : YieldsTexts .arguments ["(", ")"] := by
  intro ts hs ht
  obtain ⟨opening, us, rfl, ho, hso, hus, hs⟩ := exists_cons_of_texts ht hs
  obtain ⟨closing, rfl, hc, hsc⟩ := eq_singleton_of_texts hus hs
  have hargs : ∀ k ∈ ([] : List NodeKind), k = .argument := by simp
  simpa [Yields] using holds_enclosed (q := (· == .argumentList)) (.argumentList hargs) rfl
    (face_of_mark .openParen hso ho rfl) (face_of_mark .closeParen hsc hc rfl) rfl
    (List.forall_mem_nil _)

/-- The tokens of an expression are those of an argument. -/
theorem holds_argument {ts : List Token} (h : Holds NodeKind.isExpr ts) :
    Holds (· == .argument) ts := by
  obtain ⟨e, he, rfl⟩ := h
  obtain ⟨k, hk, hkp⟩ := he.isOf.face_eq
  have hfits : ∀ c ∈ [e], c.Fits := by simpa using he.fits
  simpa using holds_node (p := (· == .argument)) (.argument hkp) (by simp [hk]) hfits rfl

theorem yields_arguments {e : List String} {es : List (List String)} (ih : YieldsTexts .expr e)
    (ihs : ∀ f ∈ es, YieldsTexts .expr f) :
    YieldsTexts .arguments ("(" :: (e ++ more "," es ++ [")"])) := by
  intro ts hs ht
  obtain ⟨opening, t, cs, closing, rfl, ⟨ho, hso⟩, hfit, hcs, ⟨hc, hsc⟩, -⟩ :=
    exists_enclosed (fun _ (h : Yields .expr _) => holds_argument h) ih ihs ht hs
  exact holds_arguments (kind_of_mark hso ho rfl) (kind_of_mark hsc hc rfl) (.cons hfit hcs)

end Expressions

section Types

/-- Marks go on the right of any type. -/
theorem yields_marked {φ : Phrase} (hφ : ∀ ts, Yields φ ts → Holds NodeKind.isType ts)
    {t : List String} {ms : List (List String)} (ih : YieldsTexts φ t)
    (ihs : ∀ m ∈ ms, YieldsTexts .mark m) : YieldsTexts .type (t ++ ms.flatten) := by
  intro ts hs ht
  obtain ⟨as, us, rfl, has, hsa, hus, hsu⟩ := exists_append_of_texts ht hs
  obtain ⟨l, hl, rfl⟩ := hφ as (ih as hsa has)
  have hmark : ∀ ts, Yields .mark ts → ∀ l, FitsAs NodeKind.isType l →
      Holds NodeKind.isType (l.tokens ++ ts) := fun _ h => h
  exact exists_of_flatten hmark ihs hsu hus hl

theorem yields_nullable : YieldsTexts .mark ["?"] := by
  intro ts hs ht l hl
  obtain ⟨mark, rfl, hm, hsm⟩ := eq_singleton_of_texts ht hs
  exact holds_marked hl (.inl (kind_of_mark hsm hm rfl))

theorem yields_pointer : YieldsTexts .mark ["*"] := by
  intro ts hs ht l hl
  obtain ⟨mark, rfl, hm, hsm⟩ := eq_singleton_of_texts ht hs
  exact holds_marked hl (.inr (kind_of_mark hsm hm rfl))

theorem yields_rank (n : Nat) : YieldsTexts .mark ("[" :: (List.replicate n "," ++ ["]"])) := by
  intro ts hs ht l hl
  obtain ⟨opening, us, rfl, ho, hso, hus, hs⟩ := exists_cons_of_texts ht hs
  obtain ⟨commas, vs, rfl, hcommas, hsc, hvs, hs⟩ := exists_append_of_texts hus hs
  obtain ⟨closing, rfl, hc, hsc'⟩ := eq_singleton_of_texts hvs hs
  refine holds_array hl (kind_of_mark hso ho rfl) (kind_of_mark hsc' hc rfl) fun c hmem => ?_
  have hcomma : c.text ∈ List.replicate n "," := hcommas ▸ List.mem_map_of_mem hmem
  exact kind_of_mark (hsc c hmem) (List.eq_of_mem_replicate hcomma) rfl

theorem yields_builtin {w : String} (hw : w ∈ builtinTypes) : YieldsTexts .builtin [w] := by
  intro ts hs ht
  obtain ⟨u, rfl, rfl, hu⟩ := eq_singleton_of_texts ht hs
  have hword := face_of_word hu rfl (List.mem_append_left _ hw)
  have hfits : ∀ c ∈ [Tree.token u], c.Fits := by simpa using Fits.token u
  simpa [Yields] using holds_node (p := (· == .predefinedType)) (.predefinedType hw)
    (by simp [hword]) hfits rfl

theorem yields_identifier {i : String} (hi : IsIdentifier i) : YieldsTexts .simpleName [i] := by
  intro ts hs ht
  obtain ⟨u, rfl, rfl, hu⟩ := eq_singleton_of_texts ht hs
  have hfits : ∀ c ∈ [Tree.token u], c.Fits := by simpa using Fits.token u
  simpa [Yields] using holds_node (p := NodeKind.isSimpleName) .identifierName
    (by simp [face_of_isIdentifier hu hi]) hfits rfl

theorem yields_generic {i : String} {as : List String} (hi : IsIdentifier i)
    (ih : YieldsTexts .typeArguments as) : YieldsTexts .simpleName (i :: as) := by
  intro ts hs ht
  obtain ⟨u, us, rfl, rfl, hu, hus, hs⟩ := exists_cons_of_texts ht hs
  obtain ⟨a, ha, rfl⟩ := ih us hs hus
  obtain ⟨k, hk, hkp⟩ := ha.isOf.face_eq
  obtain rfl : k = .typeArgumentList := by simpa using hkp
  have hfits : ∀ c ∈ [.token u, a], c.Fits := by simpa using ⟨.token u, ha.fits⟩
  simpa [Yields] using holds_node (p := NodeKind.isSimpleName) .genericName
    (by simp [face_of_isIdentifier hu hi, hk]) hfits rfl

theorem yields_typeArguments {t : List String} {ts : List (List String)}
    (ih : YieldsTexts .type t) (ihs : ∀ u ∈ ts, YieldsTexts .type u) :
    YieldsTexts .typeArguments ("<" :: (t ++ more "," ts ++ [">"])) := by
  intro ts hs ht
  obtain ⟨less, t, cs, greater, rfl, ⟨hl, hsl⟩, hfit, hcs, ⟨hg, hsg⟩, -⟩ :=
    exists_enclosed (fun _ (h : Yields .type _) => h) ih ihs ht hs
  exact holds_typeArguments (kind_of_mark hsl hl rfl) (kind_of_mark hsg hg rfl) (.cons hfit hcs)

theorem yields_tuple {e : List String} {es : List (List String)} (ih : YieldsTexts .element e)
    (ihs : ∀ f ∈ es, YieldsTexts .element f) (hne : es ≠ []) :
    YieldsTexts .tuple ("(" :: (e ++ more "," es ++ [")"])) := by
  intro ts hs ht
  obtain ⟨opening, t, cs, closing, rfl, ⟨ho, hso⟩, hfit, hcs, ⟨hc, hsc⟩, hmap⟩ :=
    exists_enclosed (fun _ (h : Yields .element _) => h) ih ihs ht hs
  refine holds_tuple (kind_of_mark hso ho rfl) (kind_of_mark hsc hc rfl) hfit hcs ?_
  rintro rfl
  obtain ⟨f, es, rfl⟩ := List.exists_cons_of_ne_nil hne
  simp at hmap

theorem yields_element {t : List String} (ih : YieldsTexts .type t) :
    YieldsTexts .element t := by
  intro ts hs ht
  obtain ⟨u, hu, rfl⟩ := ih ts hs ht
  obtain ⟨k, hk, hkp⟩ := hu.isOf.face_eq
  have hfits : ∀ c ∈ [u], c.Fits := by simpa using hu.fits
  simpa [Yields] using holds_node (p := (· == .tupleElement)) (.tupleElement hkp) (by simp [hk])
    hfits rfl

theorem yields_namedElement {t : List String} {i : String} (ih : YieldsTexts .type t)
    (hi : IsIdentifier i) : YieldsTexts .element (t ++ [i]) := by
  intro ts hs ht
  obtain ⟨as, us, rfl, has, hsa, hus, hs⟩ := exists_append_of_texts ht hs
  obtain ⟨ident, rfl, rfl, hsi⟩ := eq_singleton_of_texts hus hs
  obtain ⟨u, hu, rfl⟩ := ih as hsa has
  obtain ⟨k, hk, hkp⟩ := hu.isOf.face_eq
  have hfits : ∀ c ∈ [u, .token ident], c.Fits := by simpa using ⟨hu.fits, .token ident⟩
  simpa [Yields] using holds_node (p := (· == .tupleElement)) (.namedElement hkp)
    (by simp [hk, face_of_isIdentifier hsi hi]) hfits rfl

end Types

section Names

/-- The rest of a name can be put behind its first part as a name and as an expression. -/
theorem yields_dots {as : List Token} {start : Tree} (hn : FitsAs NodeKind.isNameStart start)
    {ns : List (List String)} (ihs : ∀ m ∈ ns, YieldsTexts .simpleName m)
    (hs : ∀ t ∈ as, t.Spelled) (ht : as.map Token.text = more "." ns) :
    Yields .name (start.tokens ++ as) :=
  ⟨exists_of_dots (fun _ _ _ => holds_qualifiedName) ihs hs ht
      (hn.mono NodeKind.isName_of_isNameStart),
    exists_of_dots (fun _ _ _ => holds_memberAccess) ihs hs ht
      (hn.mono NodeKind.isExpr_of_isNameStart)⟩

theorem yields_name {n : List String} {ns : List (List String)} (ih : YieldsTexts .simpleName n)
    (ihs : ∀ m ∈ ns, YieldsTexts .simpleName m) : YieldsTexts .name (n ++ more "." ns) := by
  intro ts hs ht
  obtain ⟨as, bs, rfl, has, hsa, hbs, hsb⟩ := exists_append_of_texts ht hs
  obtain ⟨start, hstart, rfl⟩ := ih as hsa has
  exact yields_dots (hstart.mono fun h => by simp [NodeKind.isNameStart, h]) ihs hsb hbs

theorem yields_aliasedName {i : String} {n : List String} {ns : List (List String)}
    (hi : IsIdentifier i) (ih : YieldsTexts .simpleName n)
    (ihs : ∀ m ∈ ns, YieldsTexts .simpleName m) :
    YieldsTexts .name (i :: "::" :: (n ++ more "." ns)) := by
  intro ts hs ht
  obtain ⟨ident, us, rfl, rfl, hsi, hus, hs⟩ := exists_cons_of_texts ht hs
  obtain ⟨colons, us, rfl, hc, hsc, hus, hs⟩ := exists_cons_of_texts hus hs
  obtain ⟨as, bs, rfl, has, hsa, hbs, hsb⟩ := exists_append_of_texts hus hs
  obtain ⟨r, hr, rfl⟩ := ih as hsa has
  obtain ⟨j, hj, hjp⟩ := hr.isOf.face_eq
  have hident := identifierName_fits (kind_of_isIdentifier hsi hi)
  have hcolons := face_of_mark .colonColon hsc hc rfl
  have hfits : ∀ c ∈ [.node .identifierName [.token ident], .token colons, r], c.Fits := by
    simpa using ⟨hident, .token colons, hr.fits⟩
  obtain ⟨start, hstart, htok⟩ := holds_node (p := NodeKind.isNameStart) (.aliasQualifiedName hjp)
    (by simp [hcolons, hj]) hfits rfl
  have h := yields_dots hstart ihs hsb hbs
  simpa [htok] using h

end Names

/-- Tokens whose texts are derived from a phrase are the tokens of what the phrase stands for. -/
theorem yieldsTexts {φ : Phrase} {ws : List String} (h : Derives φ ws) : YieldsTexts φ ws := by
  induction h with
  | unit hs ih => exact exists_of_statements ih
  | usingName hn ih => exact yields_usingName ih
  | declaration ht hi he iht ihe => exact yields_declaration iht hi ihe
  | expression he ih => exact yields_expression ih
  | expr hp hs ih ihs => exact yields_expr ih ihs
  | member hn ih => exact yields_member ih
  | call ha ih => exact yields_call ih
  | typeOf ht ih => exact yields_typeOf ih
  | literal hw => exact yields_literal hw
  | this => exact yields_this
  | parenthesized he ih => exact yields_parenthesized ih
  | builtinExpr hw ih => exact fun ts hs ht => holds_of_kind (ih ts hs ht) rfl
  | nameExpr hn ih => exact fun ts hs ht => (ih ts hs ht).2
  | noArguments => exact yields_noArguments
  | arguments he hes ih ihs => exact yields_arguments ih ihs
  | builtinType hw hms ih ihs =>
      exact yields_marked (fun ts (h : Yields .builtin ts) => holds_of_kind h rfl) ih ihs
  | tupleType ht hms ih ihs =>
      exact yields_marked (fun ts (h : Yields .tuple ts) => holds_of_kind h rfl) ih ihs
  | nameType hn hms ih ihs =>
      exact yields_marked (fun ts (h : Yields .name ts) => h.1.mono NodeKind.isType_of_isName)
        ih ihs
  | nullable => exact yields_nullable
  | pointer => exact yields_pointer
  | rank n => exact yields_rank n
  | builtin hw => exact yields_builtin hw
  | name hn hns ih ihs => exact yields_name ih ihs
  | aliasedName hi hn hns ih ihs => exact yields_aliasedName hi ih ihs
  | identifier hi => exact yields_identifier hi
  | generic hi ha ih => exact yields_generic hi ih
  | typeArguments ht hts ih ihs => exact yields_typeArguments ih ihs
  | tuple he hes hne ih ihs => exact yields_tuple ih ihs hne
  | element ht ih => exact yields_element ih
  | namedElement ht hi ih => exact yields_namedElement ih hi

/-! ## Acceptance -/

theorem derives_of_document {source : String} {root : Tree} (h : document source = .ok root) :
    ∃ ws, Cut source.toList ws ∧ Derives .unit ws := by
  obtain ⟨statements, trivia, ht, hl, hall, rfl⟩ := document_sound h
  exact ⟨_, cut_iff_tokens.mpr ⟨_, trivia, ht, hl, rfl⟩,
    derives_statements hall (spelled_of_tokens ht)⟩

theorem derives_of_expression {source : String} {root : Tree}
    (h : expression source = .ok root) : ∃ ws, Cut source.toList ws ∧ Derives .expr ws := by
  obtain ⟨e, trivia, ht, hl, he, rfl⟩ := expression_sound h
  exact ⟨_, cut_iff_tokens.mpr ⟨_, trivia, ht, hl, rfl⟩,
    (isDerivation_of_fits he.fits (spelled_of_tokens ht)).expr he.isOf⟩

theorem document_of_derives {source : String} {ws : List String} (hc : Cut source.toList ws)
    (hd : Derives .unit ws) : ∃ root, document source = .ok root := by
  obtain ⟨ts, trivia, ht, hl, rfl⟩ := cut_iff_tokens.mp hc
  obtain ⟨ss, hss, rfl⟩ := yieldsTexts hd ts (spelled_of_tokens ht) rfl
  exact ⟨_, document_of_tokens hss ht hl⟩

/-- A text that has a token is not blank. -/
theorem all_isBlank_of_tokens {source : String} {t : Token} {ts : List Token} {trivia : List Char}
    (h : Lexical.tokens source.toList = (t :: ts, trivia)) :
    source.toList.all Text.isBlank = false := by
  have hs := spelled_of_tokens h t (by simp)
  obtain ⟨c, cs, hcs, hblank, -⟩ := Lexeme.eq_cons hs
  refine List.all_eq_false.mpr ⟨c, ?_, by simp [hblank]⟩
  rw [← toList_whole_of_tokens h]
  simp [Token.whole, hcs]

theorem expression_of_derives {source : String} {ws : List String} (hc : Cut source.toList ws)
    (hd : Derives .expr ws) : ∃ root, expression source = .ok root := by
  obtain ⟨ts, trivia, ht, hl, rfl⟩ := cut_iff_tokens.mp hc
  obtain ⟨e, he, rfl⟩ := yieldsTexts hd ts (spelled_of_tokens ht) rfl
  obtain ⟨t, ts, hts⟩ := List.exists_cons_of_ne_nil he.fits.tokens_ne_nil
  exact ⟨_, expression_of_tokens he (all_isBlank_of_tokens (hts ▸ ht)) ht hl⟩

/-- A text is read just when it can be cut into texts that the grammar derives: as a document from
a unit, as an expression from an expression. -/
theorem accepts_grammar (source : String) :
    ((∃ root, document source = .ok root) ↔
      ∃ ws, Cut source.toList ws ∧ Derives .unit ws) ∧
    ((∃ root, expression source = .ok root) ↔
      ∃ ws, Cut source.toList ws ∧ Derives .expr ws) := by
  refine ⟨⟨?_, ?_⟩, ⟨?_, ?_⟩⟩
  · rintro ⟨root, h⟩
    exact derives_of_document h
  · rintro ⟨ws, hc, hd⟩
    exact document_of_derives hc hd
  · rintro ⟨root, h⟩
    exact derives_of_expression h
  · rintro ⟨ws, hc, hd⟩
    exact expression_of_derives hc hd

end CallFill.Grammar
