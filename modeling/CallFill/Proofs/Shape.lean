import CallFill.Proofs.Arrangement

/-!
# The children of fitting nodes

For every kind, what the children of a fitting node of that kind are.
-/

namespace CallFill.Tree

/-- A fitting tree of a class. -/
structure FitsAs (p : NodeKind → Bool) (t : Tree) : Prop where
  fits : t.Fits
  isOf : t.isOf p

theorem FitsAs.mono {p q : NodeKind → Bool} {t : Tree} (h : FitsAs p t)
    (hpq : ∀ {k}, p k = true → q k = true) : FitsAs q t := ⟨h.fits, h.isOf.mono hpq⟩

theorem FitsAs.eq_node {p : NodeKind → Bool} {t : Tree} (h : FitsAs p t) :
    ∃ k cs, t = .node k cs ∧ p k = true := isOf_iff.mp h.isOf

theorem FitsAs.of_face {p : NodeKind → Bool} {t : Tree} {k : NodeKind} (h : t.Fits)
    (hf : t.face = .node k) (hk : p k = true) : FitsAs p t := ⟨h, isOf_of_face hf hk⟩

/-! ## Lists with commas -/

/-- Fitting trees of a class with a comma before each. -/
inductive MoreOf (p : NodeKind → Bool) : List Tree → Prop
  | nil : MoreOf p []
  | cons {comma : Token} {t : Tree} {ts : List Tree} (hc : comma.kind = .comma)
      (ht : FitsAs p t) (hts : MoreOf p ts) : MoreOf p (.token comma :: t :: ts)

theorem moreOf_of_faces {p : NodeKind → Bool} {cs : List Tree} {ks : List NodeKind}
    (hfits : ∀ c ∈ cs, c.Fits) (hks : ∀ k ∈ ks, p k = true)
    (hmap : cs.map face = Face.more ks) : MoreOf p cs := by
  induction ks generalizing cs with
  | nil =>
      obtain rfl : cs = [] := by simpa using hmap
      exact .nil
  | cons k ks ih =>
      simp only [Face.more_cons, List.map_eq_cons_iff, face_eq_token_iff] at hmap
      obtain ⟨_, _, rfl, ⟨comma, rfl, hc, -⟩, t, ts, rfl, ht, hts⟩ := hmap
      refine .cons hc (.of_face (hfits t (by simp)) ht (hks k (by simp))) ?_
      exact ih (fun c hc => hfits c (by simp [hc])) (fun j hj => hks j (by simp [hj])) hts

theorem MoreOf.faces {p : NodeKind → Bool} {cs : List Tree} (h : MoreOf p cs) :
    (∀ c ∈ cs, c.Fits) ∧ ∃ ks : List NodeKind, (∀ k ∈ ks, p k = true) ∧
      cs.map face = Face.more ks ∧ cs.length = 2 * ks.length := by
  induction h with
  | nil => exact ⟨by simp, [], by simp⟩
  | cons hc ht _ ih =>
      obtain ⟨hfits, ks, hks, hmap, hlen⟩ := ih
      obtain ⟨k, hface, hk⟩ := ht.isOf.face_eq
      refine ⟨?_, k :: ks, ?_, ?_, ?_⟩
      · simpa using ⟨.token _, ht.fits, hfits⟩
      · simpa using ⟨hk, hks⟩
      · simp [Token.face_of_kind hc, hface, hmap]
      · simp only [List.length_cons, hlen]
        omega

/-- Fitting trees of a class, one or more, with commas between them. -/
inductive ListOf (p : NodeKind → Bool) : List Tree → Prop
  | cons {t : Tree} {ts : List Tree} (ht : FitsAs p t) (hts : MoreOf p ts) : ListOf p (t :: ts)

theorem listOf_of_faces {p : NodeKind → Bool} {cs : List Tree} {k : NodeKind}
    {ks : List NodeKind} (hfits : ∀ c ∈ cs, c.Fits) (hks : ∀ j ∈ k :: ks, p j = true)
    (hmap : cs.map face = Face.listed (k :: ks)) : ListOf p cs := by
  simp only [Face.listed, List.map_eq_cons_iff] at hmap
  obtain ⟨t, ts, rfl, ht, hts⟩ := hmap
  refine .cons (.of_face (hfits t (by simp)) ht (hks k (by simp))) ?_
  exact moreOf_of_faces (fun c hc => hfits c (by simp [hc])) (fun j hj => hks j (by simp [hj])) hts

theorem ListOf.faces {p : NodeKind → Bool} {cs : List Tree} (h : ListOf p cs) :
    (∀ c ∈ cs, c.Fits) ∧ ∃ ks : List NodeKind, ks ≠ [] ∧ (∀ k ∈ ks, p k = true) ∧
      cs.map face = Face.listed ks := by
  cases h with
  | cons ht hts =>
      obtain ⟨hfits, ks, hks, hmap, -⟩ := hts.faces
      obtain ⟨k, hface, hk⟩ := ht.isOf.face_eq
      refine ⟨by simpa using ⟨ht.fits, hfits⟩, k :: ks, List.cons_ne_nil _ _, ?_, ?_⟩
      · simpa using ⟨hk, hks⟩
      · simp [hface, hmap, Face.listed]

/-- The nodes in a list are of the class. -/
theorem ListOf.isOf_of_mem {p : NodeKind → Bool} {cs : List Tree} (h : ListOf p cs) {c : Tree}
    (hc : c ∈ cs) (hnode : c.isNode = true) : c.isOf p := by
  obtain ⟨-, ks, -, hks, hfaces⟩ := h.faces
  have hmem : c.face ∈ Face.listed ks := hfaces ▸ List.mem_map_of_mem hc
  rcases Face.mem_listed hmem with hcomma | ⟨k, hk, hface⟩
  · obtain ⟨u, rfl, -⟩ := face_eq_token_iff.mp hcomma
    cases hnode
  · exact isOf_of_face hface (hks k hk)

/-- Between a token of one kind and a token of another. -/
theorem eq_enclosed {k l : TokenKind} {fs : List Face} {cs : List Tree}
    (hf : cs.map face = .token k :: fs ++ [.token l]) : ∃ (a b : Token) (ds : List Tree),
      cs = .token a :: ds ++ [.token b] ∧ a.kind = k ∧ b.kind = l ∧ ds.map face = fs := by
  simp only [List.cons_append, List.map_eq_cons_iff, List.map_eq_append_iff, face_eq_token_iff,
    List.map_eq_nil_iff] at hf
  obtain ⟨_, _, rfl, ⟨a, rfl, ha, -⟩, ds, _, rfl, hds, _, _, rfl, ⟨b, rfl, hb, -⟩, rfl⟩ := hf
  exact ⟨a, b, ds, rfl, ha, hb, hds⟩

/-! ## Names and types -/

section

variable {cs : List Tree}

theorem children_of_identifierName (h : (node .identifierName cs).Fits) :
    ∃ i : Token, cs = [.token i] ∧ i.kind = .identifier := by
  obtain ⟨fs, ha, hf⟩ := h.exists_arranged
  cases ha
  simp only [List.map_eq_cons_iff, face_eq_token_iff, List.map_eq_nil_iff] at hf
  obtain ⟨_, _, rfl, ⟨i, rfl, hi, -⟩, rfl⟩ := hf
  exact ⟨i, rfl, hi⟩

theorem children_of_genericName (h : (node .genericName cs).Fits) :
    ∃ (i : Token) (as : List Tree), cs = [.token i, .node .typeArgumentList as] ∧
      i.kind = .identifier ∧ (node .typeArgumentList as).Fits := by
  obtain ⟨fs, ha, hf⟩ := h.exists_arranged
  cases ha
  simp only [List.map_eq_cons_iff, face_eq_token_iff, face_eq_node_iff, List.map_eq_nil_iff] at hf
  obtain ⟨_, _, rfl, ⟨i, rfl, hi, -⟩, _, _, rfl, ⟨as, rfl⟩, rfl⟩ := hf
  exact ⟨i, as, rfl, hi, h.of_mem (by simp)⟩

theorem children_of_typeArgumentList (h : (node .typeArgumentList cs).Fits) :
    ∃ (less greater : Token) (types : List Tree),
      cs = .token less :: types ++ [.token greater] ∧ less.kind = .lessThan ∧
      greater.kind = .greaterThan ∧ ListOf NodeKind.isType types := by
  obtain ⟨fs, ha, hf⟩ := h.exists_arranged
  cases ha with
  | @typeArgumentList ks hne hks =>
      obtain ⟨less, greater, types, rfl, hl, hg, hmap⟩ := eq_enclosed hf
      obtain ⟨k, ks, rfl⟩ := List.exists_cons_of_ne_nil hne
      exact ⟨less, greater, types, rfl, hl, hg,
        listOf_of_faces (fun c hc => h.of_mem (by simp [hc])) hks hmap⟩

theorem children_of_qualifiedName (h : (node .qualifiedName cs).Fits) :
    ∃ (l : Tree) (dot : Token) (r : Tree), cs = [l, .token dot, r] ∧
      FitsAs NodeKind.isName l ∧ dot.kind = .dot ∧ FitsAs NodeKind.isSimpleName r := by
  obtain ⟨fs, ha, hf⟩ := h.exists_arranged
  cases ha with
  | qualifiedName hl hr =>
      simp only [List.map_eq_cons_iff, face_eq_token_iff, List.map_eq_nil_iff] at hf
      obtain ⟨l, _, rfl, hlf, _, _, rfl, ⟨dot, rfl, hd, -⟩, r, _, rfl, hrf, rfl⟩ := hf
      exact ⟨l, dot, r, rfl, .of_face (h.of_mem (by simp)) hlf hl, hd,
        .of_face (h.of_mem (by simp)) hrf hr⟩

theorem children_of_aliasQualifiedName (h : (node .aliasQualifiedName cs).Fits) :
    ∃ (i colons : Token) (r : Tree),
      cs = [.node .identifierName [.token i], .token colons, r] ∧ i.kind = .identifier ∧
      colons.kind = .colonColon ∧ FitsAs NodeKind.isSimpleName r := by
  obtain ⟨fs, ha, hf⟩ := h.exists_arranged
  cases ha with
  | aliasQualifiedName hr =>
      simp only [List.map_eq_cons_iff, face_eq_token_iff,
        face_eq_node_iff (k := .identifierName), List.map_eq_nil_iff] at hf
      obtain ⟨_, _, rfl, ⟨is, rfl⟩, _, _, rfl, ⟨colons, rfl, hc, -⟩, r, _, rfl, hrf, rfl⟩ := hf
      obtain ⟨i, rfl, hi⟩ := @children_of_identifierName is (h.of_mem (by simp))
      exact ⟨i, colons, r, rfl, hi, hc, .of_face (h.of_mem (by simp)) hrf hr⟩

theorem children_of_predefinedType (h : (node .predefinedType cs).Fits) :
    ∃ w : Token, cs = [.token w] ∧ w.kind = .keyword ∧ w.text ∈ Lexical.builtinTypes := by
  obtain ⟨fs, ha, hf⟩ := h.exists_arranged
  cases ha with
  | predefinedType hw =>
      simp only [List.map_eq_cons_iff, face_eq_word_iff, List.map_eq_nil_iff] at hf
      obtain ⟨_, _, rfl, ⟨w, rfl, hk, rfl⟩, rfl⟩ := hf
      exact ⟨w, rfl, hk, hw⟩

theorem children_of_arrayType (h : (node .arrayType cs).Fits) :
    ∃ (l : Tree) (rs : List Tree), cs = [l, .node .rankSpecifier rs] ∧
      FitsAs NodeKind.isType l ∧ (node .rankSpecifier rs).Fits := by
  obtain ⟨fs, ha, hf⟩ := h.exists_arranged
  cases ha with
  | arrayType hl =>
      simp only [List.map_eq_cons_iff, face_eq_node_iff (k := .rankSpecifier),
        List.map_eq_nil_iff] at hf
      obtain ⟨l, _, rfl, hlf, _, _, rfl, ⟨rs, rfl⟩, rfl⟩ := hf
      exact ⟨l, rs, rfl, .of_face (h.of_mem (by simp)) hlf hl, h.of_mem (by simp)⟩

theorem children_of_rankSpecifier (h : (node .rankSpecifier cs).Fits) :
    ∃ (opening closing : Token) (commas : List Token),
      cs = .token opening :: commas.map .token ++ [.token closing] ∧
      opening.kind = .openBracket ∧ closing.kind = .closeBracket ∧
      ∀ c ∈ commas, c.kind = .comma := by
  obtain ⟨fs, ha, hf⟩ := h.exists_arranged
  cases ha with
  | rankSpecifier n =>
      obtain ⟨opening, closing, ds, rfl, ho, hc, hmap⟩ := eq_enclosed hf
      clear hf h
      suffices ∃ commas : List Token, ds = commas.map .token ∧ ∀ c ∈ commas, c.kind = .comma by
        obtain ⟨commas, rfl, hcommas⟩ := this
        exact ⟨opening, closing, commas, rfl, ho, hc, hcommas⟩
      induction n generalizing ds with
      | zero => exact ⟨[], by simpa using hmap, by simp⟩
      | succ n ih =>
          simp only [List.replicate_succ, List.map_eq_cons_iff, face_eq_token_iff] at hmap
          obtain ⟨_, ds, rfl, ⟨comma, rfl, hk, -⟩, hds⟩ := hmap
          obtain ⟨commas, rfl, hcommas⟩ := ih ds hds
          exact ⟨comma :: commas, rfl, by simpa using ⟨hk, hcommas⟩⟩

theorem children_of_nullableType (h : (node .nullableType cs).Fits) :
    ∃ (l : Tree) (mark : Token), cs = [l, .token mark] ∧ FitsAs NodeKind.isType l ∧
      mark.kind = .question := by
  obtain ⟨fs, ha, hf⟩ := h.exists_arranged
  cases ha with
  | nullableType hl =>
      simp only [List.map_eq_cons_iff, face_eq_token_iff, List.map_eq_nil_iff] at hf
      obtain ⟨l, _, rfl, hlf, _, _, rfl, ⟨mark, rfl, hm, -⟩, rfl⟩ := hf
      exact ⟨l, mark, rfl, .of_face (h.of_mem (by simp)) hlf hl, hm⟩

theorem children_of_pointerType (h : (node .pointerType cs).Fits) :
    ∃ (l : Tree) (mark : Token), cs = [l, .token mark] ∧ FitsAs NodeKind.isType l ∧
      mark.kind = .asterisk := by
  obtain ⟨fs, ha, hf⟩ := h.exists_arranged
  cases ha with
  | pointerType hl =>
      simp only [List.map_eq_cons_iff, face_eq_token_iff, List.map_eq_nil_iff] at hf
      obtain ⟨l, _, rfl, hlf, _, _, rfl, ⟨mark, rfl, hm, -⟩, rfl⟩ := hf
      exact ⟨l, mark, rfl, .of_face (h.of_mem (by simp)) hlf hl, hm⟩

theorem children_of_tupleType (h : (node .tupleType cs).Fits) :
    ∃ (opening closing : Token) (t : Tree) (ts : List Tree),
      cs = .token opening :: (t :: ts) ++ [.token closing] ∧ opening.kind = .openParen ∧
      closing.kind = .closeParen ∧ FitsAs (· == .tupleElement) t ∧
      MoreOf (· == .tupleElement) ts ∧ ts ≠ [] := by
  obtain ⟨fs, ha, hf⟩ := h.exists_arranged
  cases ha with
  | @tupleType ks hlen hks =>
      obtain ⟨opening, closing, ds, rfl, ho, hc, hmap⟩ := eq_enclosed hf
      match ks, hlen with
      | k :: j :: ks, _ =>
          have hlist : ListOf (· == .tupleElement) ds :=
            listOf_of_faces (fun c hc => h.of_mem (by simp [hc]))
              (fun i hi => by simp [hks i hi]) hmap
          cases hlist with
          | @cons t ts ht hts =>
              refine ⟨opening, closing, t, ts, rfl, ho, hc, ht, hts, ?_⟩
              rintro rfl
              simp [Face.listed] at hmap

theorem children_of_tupleElement (h : (node .tupleElement cs).Fits) :
    ∃ u : Tree, FitsAs NodeKind.isType u ∧ (cs = [u] ∨
      ∃ i : Token, cs = [u, .token i] ∧ i.kind = .identifier) := by
  obtain ⟨fs, ha, hf⟩ := h.exists_arranged
  cases ha with
  | tupleElement hk =>
      simp only [List.map_eq_cons_iff, List.map_eq_nil_iff] at hf
      obtain ⟨u, _, rfl, huf, rfl⟩ := hf
      exact ⟨u, .of_face (h.of_mem (by simp)) huf hk, .inl rfl⟩
  | namedElement hk =>
      simp only [List.map_eq_cons_iff, face_eq_token_iff, List.map_eq_nil_iff] at hf
      obtain ⟨u, _, rfl, huf, _, _, rfl, ⟨i, rfl, hi, -⟩, rfl⟩ := hf
      exact ⟨u, .of_face (h.of_mem (by simp)) huf hk, .inr ⟨i, rfl, hi⟩⟩

end

/-! ## Expressions -/

section

variable {cs : List Tree}

theorem children_of_typeOf (h : (node .typeOf cs).Fits) :
    ∃ (word opening : Token) (u : Tree) (closing : Token),
      cs = [.token word, .token opening, u, .token closing] ∧
      (word.kind = .keyword ∧ word.text = "typeof") ∧ opening.kind = .openParen ∧
      FitsAs NodeKind.isType u ∧ closing.kind = .closeParen := by
  obtain ⟨fs, ha, hf⟩ := h.exists_arranged
  cases ha with
  | typeOf hk =>
      simp only [List.map_eq_cons_iff, face_eq_token_iff, face_eq_word_iff,
        List.map_eq_nil_iff] at hf
      obtain ⟨_, _, rfl, ⟨word, rfl, hw⟩, _, _, rfl, ⟨opening, rfl, ho, -⟩, u, _, rfl, huf,
        _, _, rfl, ⟨closing, rfl, hc, -⟩, rfl⟩ := hf
      exact ⟨word, opening, u, closing, rfl, hw, ho, .of_face (h.of_mem (by simp)) huf hk, hc⟩

theorem children_of_literal (h : (node .literal cs).Fits) :
    ∃ u : Token, cs = [.token u] ∧ (u.kind = .number ∨ u.kind = .string ∨
      (u.kind = .keyword ∧ u.text ∈ ["true", "false", "null"])) := by
  obtain ⟨fs, ha, hf⟩ := h.exists_arranged
  cases ha with
  | number =>
      simp only [List.map_eq_cons_iff, face_eq_token_iff, List.map_eq_nil_iff] at hf
      obtain ⟨_, _, rfl, ⟨u, rfl, hu, -⟩, rfl⟩ := hf
      exact ⟨u, rfl, .inl hu⟩
  | string =>
      simp only [List.map_eq_cons_iff, face_eq_token_iff, List.map_eq_nil_iff] at hf
      obtain ⟨_, _, rfl, ⟨u, rfl, hu, -⟩, rfl⟩ := hf
      exact ⟨u, rfl, .inr (.inl hu)⟩
  | constant hw =>
      simp only [List.map_eq_cons_iff, face_eq_word_iff, List.map_eq_nil_iff] at hf
      obtain ⟨_, _, rfl, ⟨u, rfl, hu, rfl⟩, rfl⟩ := hf
      exact ⟨u, rfl, .inr (.inr ⟨hu, hw⟩)⟩

theorem children_of_this (h : (node .this cs).Fits) :
    ∃ w : Token, cs = [.token w] ∧ w.kind = .keyword ∧ w.text = "this" := by
  obtain ⟨fs, ha, hf⟩ := h.exists_arranged
  cases ha
  simp only [List.map_eq_cons_iff, face_eq_word_iff, List.map_eq_nil_iff] at hf
  obtain ⟨_, _, rfl, ⟨w, rfl, hw⟩, rfl⟩ := hf
  exact ⟨w, rfl, hw⟩

theorem children_of_parenthesized (h : (node .parenthesized cs).Fits) :
    ∃ (opening : Token) (e : Tree) (closing : Token),
      cs = [.token opening, e, .token closing] ∧ opening.kind = .openParen ∧
      FitsAs NodeKind.isExpr e ∧ closing.kind = .closeParen := by
  obtain ⟨fs, ha, hf⟩ := h.exists_arranged
  cases ha with
  | parenthesized he =>
      simp only [List.map_eq_cons_iff, face_eq_token_iff, List.map_eq_nil_iff] at hf
      obtain ⟨_, _, rfl, ⟨opening, rfl, ho, -⟩, e, _, rfl, hef, _, _, rfl,
        ⟨closing, rfl, hc, -⟩, rfl⟩ := hf
      exact ⟨opening, e, closing, rfl, ho, .of_face (h.of_mem (by simp)) hef he, hc⟩

theorem children_of_memberAccess (h : (node .memberAccess cs).Fits) :
    ∃ (e : Tree) (dot : Token) (r : Tree), cs = [e, .token dot, r] ∧
      FitsAs NodeKind.isExpr e ∧ dot.kind = .dot ∧ FitsAs NodeKind.isSimpleName r := by
  obtain ⟨fs, ha, hf⟩ := h.exists_arranged
  cases ha with
  | memberAccess he hr =>
      simp only [List.map_eq_cons_iff, face_eq_token_iff, List.map_eq_nil_iff] at hf
      obtain ⟨e, _, rfl, hef, _, _, rfl, ⟨dot, rfl, hd, -⟩, r, _, rfl, hrf, rfl⟩ := hf
      exact ⟨e, dot, r, rfl, .of_face (h.of_mem (by simp)) hef he, hd,
        .of_face (h.of_mem (by simp)) hrf hr⟩

theorem children_of_invocation (h : (node .invocation cs).Fits) :
    ∃ (e : Tree) (as : List Tree), cs = [e, .node .argumentList as] ∧
      FitsAs NodeKind.isExpr e ∧ (node .argumentList as).Fits := by
  obtain ⟨fs, ha, hf⟩ := h.exists_arranged
  cases ha with
  | invocation he =>
      simp only [List.map_eq_cons_iff, face_eq_node_iff (k := .argumentList),
        List.map_eq_nil_iff] at hf
      obtain ⟨e, _, rfl, hef, _, _, rfl, ⟨as, rfl⟩, rfl⟩ := hf
      exact ⟨e, as, rfl, .of_face (h.of_mem (by simp)) hef he, h.of_mem (by simp)⟩

theorem children_of_argumentList (h : (node .argumentList cs).Fits) :
    ∃ (opening closing : Token) (as : List Tree),
      cs = .token opening :: as ++ [.token closing] ∧ opening.kind = .openParen ∧
      closing.kind = .closeParen ∧ (as = [] ∨ ListOf (· == .argument) as) := by
  obtain ⟨fs, ha, hf⟩ := h.exists_arranged
  cases ha with
  | @argumentList ks hks =>
      obtain ⟨opening, closing, as, rfl, ho, hc, hmap⟩ := eq_enclosed hf
      refine ⟨opening, closing, as, rfl, ho, hc, ?_⟩
      cases ks with
      | nil => exact .inl (by simpa [Face.listed] using hmap)
      | cons k ks =>
          exact .inr (listOf_of_faces (fun c hc => h.of_mem (by simp [hc]))
            (fun j hj => by simp [hks j hj]) hmap)

theorem children_of_argument (h : (node .argument cs).Fits) :
    ∃ e : Tree, cs = [e] ∧ FitsAs NodeKind.isExpr e := by
  obtain ⟨fs, ha, hf⟩ := h.exists_arranged
  cases ha with
  | argument he =>
      simp only [List.map_eq_cons_iff, List.map_eq_nil_iff] at hf
      obtain ⟨e, _, rfl, hef, rfl⟩ := hf
      exact ⟨e, rfl, .of_face (h.of_mem (by simp)) hef he⟩

end

/-! ## Statements -/

section

variable {cs : List Tree}

theorem children_of_usingDirective (h : (node .usingDirective cs).Fits) :
    ∃ (word : Token) (n : Tree) (semi : Token), cs = [.token word, n, .token semi] ∧
      (word.kind = .keyword ∧ word.text = "using") ∧ FitsAs NodeKind.isName n ∧
      semi.kind = .semicolon := by
  obtain ⟨fs, ha, hf⟩ := h.exists_arranged
  cases ha with
  | usingDirective hn =>
      simp only [List.map_eq_cons_iff, face_eq_token_iff, face_eq_word_iff,
        List.map_eq_nil_iff] at hf
      obtain ⟨_, _, rfl, ⟨word, rfl, hw⟩, n, _, rfl, hnf, _, _, rfl, ⟨semi, rfl, hs, -⟩,
        rfl⟩ := hf
      exact ⟨word, n, semi, rfl, hw, .of_face (h.of_mem (by simp)) hnf hn, hs⟩

theorem children_of_localDeclaration (h : (node .localDeclaration cs).Fits) :
    ∃ (u : Tree) (i equals : Token) (e : Tree) (semi : Token),
      cs = [u, .token i, .token equals, e, .token semi] ∧ FitsAs NodeKind.isType u ∧
      i.kind = .identifier ∧ equals.kind = .equals ∧ FitsAs NodeKind.isExpr e ∧
      semi.kind = .semicolon := by
  obtain ⟨fs, ha, hf⟩ := h.exists_arranged
  cases ha with
  | localDeclaration hu he =>
      simp only [List.map_eq_cons_iff, face_eq_token_iff, List.map_eq_nil_iff] at hf
      obtain ⟨u, _, rfl, huf, _, _, rfl, ⟨i, rfl, hi, -⟩, _, _, rfl, ⟨equals, rfl, hq, -⟩,
        e, _, rfl, hef, _, _, rfl, ⟨semi, rfl, hs, -⟩, rfl⟩ := hf
      exact ⟨u, i, equals, e, semi, rfl, .of_face (h.of_mem (by simp)) huf hu, hi, hq,
        .of_face (h.of_mem (by simp)) hef he, hs⟩

theorem children_of_expressionStatement (h : (node .expressionStatement cs).Fits) :
    ∃ (e : Tree) (semi : Token), cs = [e, .token semi] ∧ FitsAs NodeKind.isExpr e ∧
      semi.kind = .semicolon := by
  obtain ⟨fs, ha, hf⟩ := h.exists_arranged
  cases ha with
  | expressionStatement he =>
      simp only [List.map_eq_cons_iff, face_eq_token_iff, List.map_eq_nil_iff] at hf
      obtain ⟨e, _, rfl, hef, _, _, rfl, ⟨semi, rfl, hs, -⟩, rfl⟩ := hf
      exact ⟨e, semi, rfl, .of_face (h.of_mem (by simp)) hef he, hs⟩

theorem children_of_compilationUnit (h : (node .compilationUnit cs).Fits) :
    ∃ (statements : List Tree) (e : Token), cs = statements ++ [.token e] ∧
      e.kind = .endOfFile ∧ ∀ s ∈ statements, FitsAs NodeKind.isStatement s := by
  obtain ⟨fs, ha, hf⟩ := h.exists_arranged
  cases ha with
  | @compilationUnit ks hks =>
      simp only [List.map_eq_append_iff, List.map_eq_cons_iff, face_eq_token_iff,
        List.map_eq_nil_iff] at hf
      obtain ⟨statements, _, rfl, hmap, _, _, rfl, ⟨e, rfl, he, -⟩, rfl⟩ := hf
      refine ⟨statements, e, rfl, he, fun s hs => ?_⟩
      have hface : s.face ∈ ks.map Face.node := hmap ▸ List.mem_map_of_mem hs
      obtain ⟨k, hk, hsk⟩ := List.mem_map.mp hface
      exact .of_face (h.of_mem (by simp [hs])) hsk.symm (hks k hk)

end

end CallFill.Tree
