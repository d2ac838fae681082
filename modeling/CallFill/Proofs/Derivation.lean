import CallFill.Proofs.Cutting
import CallFill.Proofs.Rereading

/-!
# Derivations

The grammar as a plain context-free one over the texts of tokens, with nothing said about order or
greed.  A fitting tree is a derivation of the texts of its tokens: names, types and expressions
are built to the left in a tree and listed in a production, so each of them has a lemma that puts
one more part at its end.
-/

namespace CallFill.Grammar

open CallFill.Tree CallFill.Lexical

/-! ## The productions -/

/-- A word that is no keyword. -/
def IsIdentifier (w : String) : Prop :=
  IsWord w.toList ∧ w ∉ builtinTypes ∧ w ∉ reservedWords

/-- A number, a string or a constant. -/
def IsLiteral (w : String) : Prop :=
  IsNumber w.toList ∨ (∃ tail, w.toList = '"' :: tail ∧ IsStringTail tail) ∨
    w ∈ ["true", "false", "null"]

inductive Phrase where
  | unit
  | statement
  | expr
  | primary
  /-- A member or a list of arguments after an expression. -/
  | suffix
  | arguments
  | type
  /-- A mark after a type. -/
  | mark
  | builtin
  | name
  | simpleName
  | typeArguments
  | tuple
  /-- A type and perhaps a name for it. -/
  | element

/-- Each of the runs with a separator before it. -/
def more (separator : String) (wss : List (List String)) : List String :=
  wss.flatMap (separator :: ·)

/-- The texts of tokens that a phrase derives. -/
inductive Derives : Phrase → List String → Prop
  | unit {ss : List (List String)} (hs : ∀ s ∈ ss, Derives .statement s) : Derives .unit ss.flatten
  | usingName {n : List String} (hn : Derives .name n) : Derives .statement ("using" :: (n ++ [";"]))
  | declaration {t e : List String} {i : String} (ht : Derives .type t) (hi : IsIdentifier i)
      (he : Derives .expr e) : Derives .statement (t ++ i :: "=" :: (e ++ [";"]))
  | expression {e : List String} (he : Derives .expr e) : Derives .statement (e ++ [";"])
  | expr {p : List String} {ss : List (List String)} (hp : Derives .primary p)
      (hs : ∀ s ∈ ss, Derives .suffix s) : Derives .expr (p ++ ss.flatten)
  | member {n : List String} (hn : Derives .simpleName n) : Derives .suffix ("." :: n)
  | call {as : List String} (ha : Derives .arguments as) : Derives .suffix as
  | typeOf {t : List String} (ht : Derives .type t) :
      Derives .primary ("typeof" :: "(" :: (t ++ [")"]))
  | literal {w : String} (hw : IsLiteral w) : Derives .primary [w]
  | this : Derives .primary ["this"]
  | parenthesized {e : List String} (he : Derives .expr e) :
      Derives .primary ("(" :: (e ++ [")"]))
  | builtinExpr {w : List String} (hw : Derives .builtin w) : Derives .primary w
  | nameExpr {n : List String} (hn : Derives .name n) : Derives .primary n
  | noArguments : Derives .arguments ["(", ")"]
  | arguments {e : List String} {es : List (List String)} (he : Derives .expr e)
      (hes : ∀ f ∈ es, Derives .expr f) :
      Derives .arguments ("(" :: (e ++ more "," es ++ [")"]))
  | builtinType {w : List String} {ms : List (List String)} (hw : Derives .builtin w)
      (hms : ∀ m ∈ ms, Derives .mark m) : Derives .type (w ++ ms.flatten)
  | tupleType {t : List String} {ms : List (List String)} (ht : Derives .tuple t)
      (hms : ∀ m ∈ ms, Derives .mark m) : Derives .type (t ++ ms.flatten)
  | nameType {n : List String} {ms : List (List String)} (hn : Derives .name n)
      (hms : ∀ m ∈ ms, Derives .mark m) : Derives .type (n ++ ms.flatten)
  | nullable : Derives .mark ["?"]
  | pointer : Derives .mark ["*"]
  | rank (n : Nat) : Derives .mark ("[" :: (List.replicate n "," ++ ["]"]))
  | builtin {w : String} (hw : w ∈ builtinTypes) : Derives .builtin [w]
  | name {n : List String} {ns : List (List String)} (hn : Derives .simpleName n)
      (hns : ∀ m ∈ ns, Derives .simpleName m) : Derives .name (n ++ more "." ns)
  | aliasedName {i : String} {n : List String} {ns : List (List String)} (hi : IsIdentifier i)
      (hn : Derives .simpleName n) (hns : ∀ m ∈ ns, Derives .simpleName m) :
      Derives .name (i :: "::" :: (n ++ more "." ns))
  | identifier {i : String} (hi : IsIdentifier i) : Derives .simpleName [i]
  | generic {i : String} {as : List String} (hi : IsIdentifier i)
      (ha : Derives .typeArguments as) : Derives .simpleName (i :: as)
  | typeArguments {t : List String} {ts : List (List String)} (ht : Derives .type t)
      (hts : ∀ u ∈ ts, Derives .type u) :
      Derives .typeArguments ("<" :: (t ++ more "," ts ++ [">"]))
  | tuple {e : List String} {es : List (List String)} (he : Derives .element e)
      (hes : ∀ f ∈ es, Derives .element f) (hne : es ≠ []) :
      Derives .tuple ("(" :: (e ++ more "," es ++ [")"]))
  | element {t : List String} (ht : Derives .type t) : Derives .element t
  | namedElement {t : List String} {i : String} (ht : Derives .type t) (hi : IsIdentifier i) :
      Derives .element (t ++ [i])

/-! ## One more part at the end -/

@[simp] theorem more_nil (sep : String) : more sep [] = [] := rfl

@[simp] theorem more_cons (sep : String) (w : List String) (ws : List (List String)) :
    more sep (w :: ws) = sep :: w ++ more sep ws := rfl

theorem more_concat (sep : String) (ws : List (List String)) (w : List String) :
    more sep (ws ++ [w]) = more sep ws ++ sep :: w := by
  simp [more]

theorem forall_mem_concat {α : Type} {p : α → Prop} {xs : List α} {x : α} (hxs : ∀ y ∈ xs, p y)
    (hx : p x) : ∀ y ∈ xs ++ [x], p y := by
  intro y hy
  rcases List.mem_append.mp hy with hy | hy
  · exact hxs y hy
  · rwa [List.mem_singleton.mp hy]

theorem Derives.name_of_simpleName {n : List String} (h : Derives .simpleName n) :
    Derives .name n := by
  simpa using Derives.name h (List.forall_mem_nil _)

theorem Derives.type_of_name {n : List String} (h : Derives .name n) : Derives .type n := by
  simpa using Derives.nameType h (List.forall_mem_nil _)

theorem Derives.type_of_builtin {w : List String} (h : Derives .builtin w) : Derives .type w := by
  simpa using Derives.builtinType h (List.forall_mem_nil _)

theorem Derives.type_of_tuple {t : List String} (h : Derives .tuple t) : Derives .type t := by
  simpa using Derives.tupleType h (List.forall_mem_nil _)

theorem Derives.expr_of_primary {p : List String} (h : Derives .primary p) : Derives .expr p := by
  simpa using Derives.expr h (List.forall_mem_nil _)

theorem Derives.name_dot {l r : List String} (hl : Derives .name l) (hr : Derives .simpleName r) :
    Derives .name (l ++ "." :: r) := by
  cases hl with
  | @name n ns hn hns =>
      have h := Derives.name hn (forall_mem_concat hns hr)
      rwa [more_concat, ← List.append_assoc] at h
  | @aliasedName i n ns hi hn hns =>
      have h := Derives.aliasedName hi hn (forall_mem_concat hns hr)
      rwa [more_concat, ← List.append_assoc] at h

theorem Derives.type_mark {t m : List String} (ht : Derives .type t) (hm : Derives .mark m) :
    Derives .type (t ++ m) := by
  cases ht with
  | builtinType hw hms =>
      simpa using Derives.builtinType hw (forall_mem_concat hms hm)
  | tupleType ht hms => simpa using Derives.tupleType ht (forall_mem_concat hms hm)
  | nameType hn hms => simpa using Derives.nameType hn (forall_mem_concat hms hm)

theorem Derives.expr_suffix {e s : List String} (he : Derives .expr e) (hs : Derives .suffix s) :
    Derives .expr (e ++ s) := by
  cases he with
  | expr hp hss => simpa using Derives.expr hp (forall_mem_concat hss hs)

/-! ## Texts of tokens -/

theorem text_of_mark {t : Token} {k : TokenKind} {s : String} (h : t.Spelled) (hk : t.kind = k)
    (hs : mark? k = some s) : t.text = s :=
  String.toList_inj.mp (Lexeme.eq_mark h (hk ▸ hs))

theorem isIdentifier_of_kind {t : Token} (h : t.Spelled) (hk : t.kind = .identifier) :
    IsIdentifier t.text := by
  obtain ⟨hw, hr⟩ := Lexeme.isWord h hk
  simp only [String.ofList_toList, isReserved, Bool.or_eq_false_iff, List.contains_eq_mem,
    decide_eq_false_iff_not] at hr
  exact ⟨hw, hr⟩

theorem isLiteral_of_kind {t : Token} (h : t.Spelled) (hk : t.kind = .number ∨ t.kind = .string ∨
    (t.kind = .keyword ∧ t.text ∈ ["true", "false", "null"])) : IsLiteral t.text := by
  rcases hk with hk | hk | ⟨-, hw⟩
  · exact .inl (Lexeme.isNumber h hk)
  · exact .inr (.inl (Lexeme.isString h hk))
  · exact .inr (.inr hw)

/-! ## Fitting trees are derivations -/

/-- The phrase that a node of a kind is, where a class of kinds has one for the longest of them. -/
def phrase : NodeKind → Phrase
  | .compilationUnit => .unit
  | .usingDirective | .localDeclaration | .expressionStatement => .statement
  | .invocation | .memberAccess | .argument => .expr
  | .typeOf | .parenthesized | .literal | .this => .primary
  | .argumentList => .arguments
  | .identifierName | .genericName => .simpleName
  | .typeArgumentList => .typeArguments
  | .qualifiedName | .aliasQualifiedName => .name
  | .predefinedType => .builtin
  | .arrayType | .nullableType | .pointerType => .type
  | .rankSpecifier => .mark
  | .tupleType => .tuple
  | .tupleElement => .element

def texts (t : Tree) : List String := t.tokens.map Token.text

@[simp] theorem texts_node (k : NodeKind) (cs : List Tree) :
    texts (.node k cs) = (tokensAll cs).map Token.text := by
  simp [texts]

/-- If the tree is a node, it is a derivation of its phrase. -/
def IsDerivation (t : Tree) : Prop := ∀ k cs, t = .node k cs → Derives (phrase k) (texts t)

namespace IsDerivation

variable {t : Tree}

theorem of_kind {j : NodeKind} (h : IsDerivation t) (ht : t.isOf (· == j)) :
    Derives (phrase j) (texts t) := by
  obtain ⟨k, cs, rfl, hk⟩ := isOf_iff.mp ht
  obtain rfl : k = j := by simpa using hk
  exact h _ _ rfl

theorem simpleName (h : IsDerivation t) (ht : t.isOf NodeKind.isSimpleName) :
    Derives .simpleName (texts t) := by
  obtain ⟨k, cs, rfl, hk⟩ := isOf_iff.mp ht
  have hd := h _ _ rfl
  cases k with
  | identifierName | genericName => exact hd
  | _ => cases hk

theorem name (h : IsDerivation t) (ht : t.isOf NodeKind.isName) : Derives .name (texts t) := by
  obtain ⟨k, cs, rfl, hk⟩ := isOf_iff.mp ht
  have hd := h _ _ rfl
  cases k with
  | identifierName | genericName => exact hd.name_of_simpleName
  | qualifiedName | aliasQualifiedName => exact hd
  | _ => cases hk

theorem type (h : IsDerivation t) (ht : t.isOf NodeKind.isType) : Derives .type (texts t) := by
  obtain ⟨k, cs, rfl, hk⟩ := isOf_iff.mp ht
  have hd := h _ _ rfl
  cases k with
  | identifierName | genericName => exact hd.name_of_simpleName.type_of_name
  | qualifiedName | aliasQualifiedName => exact hd.type_of_name
  | predefinedType => exact hd.type_of_builtin
  | tupleType => exact hd.type_of_tuple
  | arrayType | nullableType | pointerType => exact hd
  | _ => cases hk

theorem expr (h : IsDerivation t) (ht : t.isOf NodeKind.isExpr) : Derives .expr (texts t) := by
  obtain ⟨k, cs, rfl, hk⟩ := isOf_iff.mp ht
  have hd := h _ _ rfl
  cases k with
  | identifierName | genericName => exact (Derives.nameExpr hd.name_of_simpleName).expr_of_primary
  | aliasQualifiedName => exact (Derives.nameExpr hd).expr_of_primary
  | predefinedType => exact (Derives.builtinExpr hd).expr_of_primary
  | typeOf | parenthesized | literal | this => exact hd.expr_of_primary
  | invocation | memberAccess => exact hd
  | _ => cases hk

theorem statement (h : IsDerivation t) (ht : t.isOf NodeKind.isStatement) :
    Derives .statement (texts t) := by
  obtain ⟨k, cs, rfl, hk⟩ := isOf_iff.mp ht
  have hd := h _ _ rfl
  cases k with
  | usingDirective | localDeclaration | expressionStatement => exact hd
  | _ => cases hk

end IsDerivation

/-- A list with commas is a derivation of its items with commas between them. -/
theorem more_of_moreOf {p : NodeKind → Bool} {φ : Phrase} {ts : List Tree} (h : MoreOf p ts)
    (hs : ∀ u ∈ tokensAll ts, u.Spelled) (hd : ∀ t ∈ ts, t.isOf p → Derives φ (texts t)) :
    ∃ wss, (tokensAll ts).map Token.text = more "," wss ∧ ∀ ws ∈ wss, Derives φ ws := by
  induction h with
  | nil => exact ⟨[], rfl, by simp⟩
  | @cons comma t ts hc ht _ ih =>
      have htext := text_of_mark (hs comma (by simp)) hc rfl
      obtain ⟨wss, hmap, hwss⟩ := ih (fun u hu => hs u (by simp [hu]))
        (fun u hu => hd u (by simp [hu]))
      refine ⟨texts t :: wss, by simp [htext, hmap, texts], ?_⟩
      simpa using ⟨hd t (by simp) ht.isOf, hwss⟩

section Children

variable {cs : List Tree} (hc : ∀ c ∈ cs, IsDerivation c) (hs : ∀ u ∈ tokensAll cs, u.Spelled)

include hc hs

theorem derives_typeArgumentList (h : (Tree.node .typeArgumentList cs).Fits) :
    Derives .typeArguments ((tokensAll cs).map Token.text) := by
  obtain ⟨less, greater, types, rfl, hl, hg, hlist⟩ := children_of_typeArgumentList h
  cases hlist with
  | @cons t ts ht hts =>
      obtain ⟨wss, hmap, hwss⟩ := more_of_moreOf hts (fun u hu => hs u (by simp [hu]))
        (fun u hu => (hc u (by simp [hu])).type)
      have hless := text_of_mark (hs less (by simp)) hl rfl
      have hgreater := text_of_mark (hs greater (by simp)) hg rfl
      have hd := Derives.typeArguments ((hc t (by simp)).type ht.isOf) hwss
      simpa [texts, hmap, hless, hgreater] using hd

theorem derives_argumentList (h : (Tree.node .argumentList cs).Fits) :
    Derives .arguments ((tokensAll cs).map Token.text) := by
  obtain ⟨opening, closing, as, rfl, ho, hcl, has⟩ := children_of_argumentList h
  have hopen := text_of_mark (hs opening (by simp)) ho rfl
  have hclose := text_of_mark (hs closing (by simp)) hcl rfl
  rcases has with rfl | hlist
  · simpa [hopen, hclose] using Derives.noArguments
  · cases hlist with
    | @cons t ts ht hts =>
        obtain ⟨wss, hmap, hwss⟩ := more_of_moreOf hts (fun u hu => hs u (by simp [hu]))
          (fun u hu => (hc u (by simp [hu])).of_kind)
        have hd := Derives.arguments ((hc t (by simp)).of_kind ht.isOf) hwss
        simpa [texts, hmap, hopen, hclose] using hd

theorem derives_tupleType (h : (Tree.node .tupleType cs).Fits) :
    Derives .tuple ((tokensAll cs).map Token.text) := by
  obtain ⟨opening, closing, t, ts, rfl, ho, hcl, ht, hts, hne⟩ := children_of_tupleType h
  have hopen := text_of_mark (hs opening (by simp)) ho rfl
  have hclose := text_of_mark (hs closing (by simp)) hcl rfl
  obtain ⟨wss, hmap, hwss⟩ := more_of_moreOf hts (fun u hu => hs u (by simp [hu]))
    (fun u hu => (hc u (by simp [hu])).of_kind)
  have hne' : wss ≠ [] := by
    rintro rfl
    cases hts with
    | nil => exact hne rfl
    | cons => simp at hmap
  have hd := Derives.tuple ((hc t (by simp)).of_kind ht.isOf) hwss hne'
  simpa [texts, hmap, hopen, hclose] using hd

omit hc in
theorem derives_rankSpecifier (h : (Tree.node .rankSpecifier cs).Fits) :
    Derives .mark ((tokensAll cs).map Token.text) := by
  obtain ⟨opening, closing, commas, rfl, ho, hcl, hcommas⟩ := children_of_rankSpecifier h
  have hopen := text_of_mark (hs opening (by simp)) ho rfl
  have hclose := text_of_mark (hs closing (by simp)) hcl rfl
  have hmap : (tokensAll (commas.map .token)).map Token.text =
      List.replicate commas.length "," := by
    rw [tokensAll_map_token]
    refine List.map_eq_replicate_iff.mpr fun c hmem => ?_
    exact text_of_mark (hs c (by simp [tokensAll_map_token, hmem])) (hcommas c hmem) rfl
  simpa [hopen, hclose, hmap] using Derives.rank commas.length

omit hc in
theorem derives_identifierName (h : (Tree.node .identifierName cs).Fits) :
    Derives .simpleName ((tokensAll cs).map Token.text) := by
  obtain ⟨i, rfl, hi⟩ := children_of_identifierName h
  simpa using Derives.identifier (isIdentifier_of_kind (hs i (by simp)) hi)

theorem derives_genericName (h : (Tree.node .genericName cs).Fits) :
    Derives .simpleName ((tokensAll cs).map Token.text) := by
  obtain ⟨i, as, rfl, hi, -⟩ := children_of_genericName h
  have has := hc (.node .typeArgumentList as) (by simp) _ _ rfl
  simpa using Derives.generic (isIdentifier_of_kind (hs i (by simp)) hi) has

theorem derives_qualifiedName (h : (Tree.node .qualifiedName cs).Fits) :
    Derives .name ((tokensAll cs).map Token.text) := by
  obtain ⟨l, dot, r, rfl, hl, hd, hr⟩ := children_of_qualifiedName h
  have hdot := text_of_mark (hs dot (by simp)) hd rfl
  have hleft := (hc l (by simp)).name hl.isOf
  simpa [texts, hdot] using hleft.name_dot ((hc r (by simp)).simpleName hr.isOf)

theorem derives_aliasQualifiedName (h : (Tree.node .aliasQualifiedName cs).Fits) :
    Derives .name ((tokensAll cs).map Token.text) := by
  obtain ⟨i, colons, r, rfl, hi, hco, hr⟩ := children_of_aliasQualifiedName h
  have hcolons := text_of_mark (hs colons (by simp)) hco rfl
  have hd := Derives.aliasedName (isIdentifier_of_kind (hs i (by simp)) hi)
    ((hc r (by simp)).simpleName hr.isOf) (List.forall_mem_nil _)
  simpa [texts, hcolons] using hd

omit hc hs in
theorem derives_predefinedType (h : (Tree.node .predefinedType cs).Fits) :
    Derives .builtin ((tokensAll cs).map Token.text) := by
  obtain ⟨w, rfl, -, hw⟩ := children_of_predefinedType h
  simpa using Derives.builtin hw

omit hs in
theorem derives_arrayType (h : (Tree.node .arrayType cs).Fits) :
    Derives .type ((tokensAll cs).map Token.text) := by
  obtain ⟨l, rs, rfl, hl, -⟩ := children_of_arrayType h
  have hrank := hc (.node .rankSpecifier rs) (by simp) _ _ rfl
  simpa [texts] using ((hc l (by simp)).type hl.isOf).type_mark hrank

theorem derives_nullableType (h : (Tree.node .nullableType cs).Fits) :
    Derives .type ((tokensAll cs).map Token.text) := by
  obtain ⟨l, mark, rfl, hl, hm⟩ := children_of_nullableType h
  have hmark := text_of_mark (hs mark (by simp)) hm rfl
  simpa [texts, hmark] using ((hc l (by simp)).type hl.isOf).type_mark .nullable

theorem derives_pointerType (h : (Tree.node .pointerType cs).Fits) :
    Derives .type ((tokensAll cs).map Token.text) := by
  obtain ⟨l, mark, rfl, hl, hm⟩ := children_of_pointerType h
  have hmark := text_of_mark (hs mark (by simp)) hm rfl
  simpa [texts, hmark] using ((hc l (by simp)).type hl.isOf).type_mark .pointer

theorem derives_tupleElement (h : (Tree.node .tupleElement cs).Fits) :
    Derives .element ((tokensAll cs).map Token.text) := by
  obtain ⟨u, hu, rfl | ⟨i, rfl, hi⟩⟩ := children_of_tupleElement h
  · simpa [texts] using Derives.element ((hc u (by simp)).type hu.isOf)
  · have hd := Derives.namedElement ((hc u (by simp)).type hu.isOf)
      (isIdentifier_of_kind (hs i (by simp)) hi)
    simpa [texts] using hd

theorem derives_typeOf (h : (Tree.node .typeOf cs).Fits) :
    Derives .primary ((tokensAll cs).map Token.text) := by
  obtain ⟨word, opening, u, closing, rfl, ⟨-, hw⟩, ho, hu, hcl⟩ := children_of_typeOf h
  have hopen := text_of_mark (hs opening (by simp)) ho rfl
  have hclose := text_of_mark (hs closing (by simp)) hcl rfl
  simpa [texts, hw, hopen, hclose] using Derives.typeOf ((hc u (by simp)).type hu.isOf)

omit hc in
theorem derives_literal (h : (Tree.node .literal cs).Fits) :
    Derives .primary ((tokensAll cs).map Token.text) := by
  obtain ⟨u, rfl, hu⟩ := children_of_literal h
  simpa using Derives.literal (isLiteral_of_kind (hs u (by simp)) hu)

omit hc hs in
theorem derives_this (h : (Tree.node .this cs).Fits) :
    Derives .primary ((tokensAll cs).map Token.text) := by
  obtain ⟨w, rfl, -, hw⟩ := children_of_this h
  simpa [hw] using Derives.this

theorem derives_parenthesized (h : (Tree.node .parenthesized cs).Fits) :
    Derives .primary ((tokensAll cs).map Token.text) := by
  obtain ⟨opening, e, closing, rfl, ho, he, hcl⟩ := children_of_parenthesized h
  have hopen := text_of_mark (hs opening (by simp)) ho rfl
  have hclose := text_of_mark (hs closing (by simp)) hcl rfl
  simpa [texts, hopen, hclose] using Derives.parenthesized ((hc e (by simp)).expr he.isOf)

theorem derives_memberAccess (h : (Tree.node .memberAccess cs).Fits) :
    Derives .expr ((tokensAll cs).map Token.text) := by
  obtain ⟨e, dot, r, rfl, he, hd, hr⟩ := children_of_memberAccess h
  have hdot := text_of_mark (hs dot (by simp)) hd rfl
  have hsuffix := Derives.member ((hc r (by simp)).simpleName hr.isOf)
  simpa [texts, hdot] using ((hc e (by simp)).expr he.isOf).expr_suffix hsuffix

omit hs in
theorem derives_invocation (h : (Tree.node .invocation cs).Fits) :
    Derives .expr ((tokensAll cs).map Token.text) := by
  obtain ⟨e, as, rfl, he, -⟩ := children_of_invocation h
  have hsuffix := Derives.call (hc (.node .argumentList as) (by simp) _ _ rfl)
  simpa [texts] using ((hc e (by simp)).expr he.isOf).expr_suffix hsuffix

omit hs in
theorem derives_argument (h : (Tree.node .argument cs).Fits) :
    Derives .expr ((tokensAll cs).map Token.text) := by
  obtain ⟨e, rfl, he⟩ := children_of_argument h
  simpa [texts] using (hc e (by simp)).expr he.isOf

theorem derives_usingDirective (h : (Tree.node .usingDirective cs).Fits) :
    Derives .statement ((tokensAll cs).map Token.text) := by
  obtain ⟨word, n, semi, rfl, ⟨-, hw⟩, hn, hse⟩ := children_of_usingDirective h
  have hsemi := text_of_mark (hs semi (by simp)) hse rfl
  simpa [texts, hw, hsemi] using Derives.usingName ((hc n (by simp)).name hn.isOf)

theorem derives_localDeclaration (h : (Tree.node .localDeclaration cs).Fits) :
    Derives .statement ((tokensAll cs).map Token.text) := by
  obtain ⟨u, i, equals, e, semi, rfl, hu, hi, hq, he, hse⟩ := children_of_localDeclaration h
  have hequals := text_of_mark (hs equals (by simp)) hq rfl
  have hsemi := text_of_mark (hs semi (by simp)) hse rfl
  have hd := Derives.declaration ((hc u (by simp)).type hu.isOf)
    (isIdentifier_of_kind (hs i (by simp)) hi) ((hc e (by simp)).expr he.isOf)
  simpa [texts, hequals, hsemi] using hd

theorem derives_expressionStatement (h : (Tree.node .expressionStatement cs).Fits) :
    Derives .statement ((tokensAll cs).map Token.text) := by
  obtain ⟨e, semi, rfl, he, hse⟩ := children_of_expressionStatement h
  have hsemi := text_of_mark (hs semi (by simp)) hse rfl
  simpa [texts, hsemi] using Derives.expression ((hc e (by simp)).expr he.isOf)

end Children

/-- The texts of a fitting tree are derived from its phrase. -/
theorem isDerivation_of_fits {t : Tree} (h : t.Fits) (hs : ∀ u ∈ t.tokens, u.Spelled) :
    IsDerivation t := by
  induction h with
  | token t => exact fun _ _ h => by cases h
  | @node k fs cs ha hf hcs ih =>
      have hfits : (Tree.node k cs).Fits := .node ha hf hcs
      rw [tokens_node] at hs
      have hc : ∀ c ∈ cs, IsDerivation c := fun c hc =>
        ih c hc fun u hu => hs u (mem_tokensAll.mpr ⟨c, hc, hu⟩)
      rintro _ _ ⟨⟩
      rw [texts_node]
      cases k with
      | compilationUnit =>
          -- the token at the end of a document has no text of its own
          obtain ⟨ss, e, rfl, he, -⟩ := children_of_compilationUnit hfits
          exact absurd he (Lexeme.ne_endOfFile (hs e (by simp)))
      | usingDirective => exact derives_usingDirective hc hs hfits
      | localDeclaration => exact derives_localDeclaration hc hs hfits
      | expressionStatement => exact derives_expressionStatement hc hs hfits
      | invocation => exact derives_invocation hc hfits
      | argumentList => exact derives_argumentList hc hs hfits
      | argument => exact derives_argument hc hfits
      | memberAccess => exact derives_memberAccess hc hs hfits
      | typeOf => exact derives_typeOf hc hs hfits
      | parenthesized => exact derives_parenthesized hc hs hfits
      | literal => exact derives_literal hs hfits
      | this => exact derives_this hfits
      | identifierName => exact derives_identifierName hs hfits
      | genericName => exact derives_genericName hc hs hfits
      | typeArgumentList => exact derives_typeArgumentList hc hs hfits
      | qualifiedName => exact derives_qualifiedName hc hs hfits
      | aliasQualifiedName => exact derives_aliasQualifiedName hc hs hfits
      | predefinedType => exact derives_predefinedType hfits
      | arrayType => exact derives_arrayType hc hfits
      | rankSpecifier => exact derives_rankSpecifier hs hfits
      | nullableType => exact derives_nullableType hc hs hfits
      | pointerType => exact derives_pointerType hc hs hfits
      | tupleType => exact derives_tupleType hc hs hfits
      | tupleElement => exact derives_tupleElement hc hs hfits

/-- The texts of fitting statements are derived from a unit. -/
theorem derives_statements {ss : List Tree} (h : ∀ s ∈ ss, FitsAs NodeKind.isStatement s)
    (hs : ∀ u ∈ tokensAll ss, u.Spelled) : Derives .unit ((tokensAll ss).map Token.text) := by
  have hmap : (tokensAll ss).map Token.text = (ss.map texts).flatten := by
    clear h hs
    induction ss with
    | nil => rfl
    | cons s ss ih => simp [ih, texts]
  rw [hmap]
  refine .unit fun ws hws => ?_
  obtain ⟨s, hmem, rfl⟩ := List.mem_map.mp hws
  have hsub : ∀ u ∈ s.tokens, u.Spelled := fun u hu => hs u (mem_tokensAll.mpr ⟨s, hmem, hu⟩)
  exact (isDerivation_of_fits (h s hmem).fits hsub).statement (h s hmem).isOf

end CallFill.Grammar
