import CallFill.Proofs.Completeness
import CallFill.Proofs.Lossless

/-!
# Reading a fitting tree again

Every fitting expression, statement and document is read back from its own tokens.  Expressions
go the way of types: the step of the repetition is a member or a list of arguments.  A statement
that is an expression is not hidden by the two forms tried before it, because the words and tokens
that make those forms never stand inside a type or an expression.
-/

namespace CallFill.Grammar

open CallFill.Tree CallFill.Lexical

/-! ## Expressions -/

/-- The kinds of token that continue an expression. -/
def exprStops : List TokenKind := [.lessThan, .colonColon, .dot, .openParen]

/-- The expressions between parentheses are found as long as they have fewer tokens than there is
fuel. -/
abbrev FindsExprs (expr : Reader) (fuel : Nat) : Prop :=
  ∀ u, FitsAs NodeKind.isExpr u → u.tokens.length < fuel → Finds exprStops expr u

section Expressions

variable {expr : Reader} {fuel : Nat} {t : Tree}

theorem typeOf?_finds {cs : List Tree} (h : (Tree.node .typeOf cs).Fits)
    (hlen : (tokensAll cs).length ≤ fuel) : Finds [] (typeOf? fuel) (.node .typeOf cs) := by
  obtain ⟨word, opening, u, closing, rfl, ⟨hk, hw⟩, ho, hu, hc⟩ := children_of_typeOf h
  intro rest _
  have htype : type? fuel (u.tokens ++ closing :: rest) = some (u, closing :: rest) :=
    type?_finds fuel u hu (by simp at hlen; omega) (by simp [hc, typeStops])
  have hword : keyword? ["typeof"] (word :: opening :: (u.tokens ++ closing :: rest)) =
      some (word, opening :: (u.tokens ++ closing :: rest)) := keyword?_cons hk (by simp [hw])
  simp [typeOf?, hword, take?_cons ho, take?_cons hc, htype]

theorem typeOf?_eq_none {u : Token} {ts : List Token} (h : u.kind = .keyword → u.text ≠ "typeof") :
    typeOf? fuel (u :: ts) = none := by
  have hword : keyword? ["typeof"] (u :: ts) = none := keyword?_eq_none (by simpa using h)
  rw [typeOf?, hword]

theorem literal?_finds {cs : List Tree} (h : (Tree.node .literal cs).Fits) :
    Finds [] literal? (.node .literal cs) := by
  obtain ⟨u, rfl, hu | hu | ⟨hu, hw⟩⟩ := children_of_literal h
  · simp [Finds, literal?, take?, hu]
  · simp [Finds, literal?, take?, hu]
  · intro rest _
    have hword : keyword? ["true", "false", "null"] (u :: rest) = some (u, rest) :=
      keyword?_cons hu hw
    simp [literal?, take?, hu, hword]

theorem literal?_eq_none {u : Token} {ts : List Token} (hn : u.kind ≠ .number)
    (hs : u.kind ≠ .string) (hw : u.kind = .keyword → u.text ∉ ["true", "false", "null"]) :
    literal? (u :: ts) = none := by
  have hword : keyword? ["true", "false", "null"] (u :: ts) = none := keyword?_eq_none hw
  simp [literal?, take?, hn, hs, hword]

theorem this?_eq_none {u : Token} {ts : List Token} (h : u.kind = .keyword → u.text ≠ "this") :
    this? (u :: ts) = none := by
  have hword : keyword? ["this"] (u :: ts) = none := keyword?_eq_none (by simpa using h)
  rw [this?, hword]

theorem parenthesized?_eq_none {u : Token} {ts : List Token} (h : u.kind ≠ .openParen) :
    parenthesized? expr (u :: ts) = none := by
  simp [parenthesized?, take?, h]

/-- The kinds of expressions that no member and no argument list ends. -/
def isPrimary (k : NodeKind) : Bool := k.isExpr && k != .memberAccess && k != .invocation

theorem eq_of_isPrimary {k : NodeKind} (h : isPrimary k = true) :
    k = .typeOf ∨ k = .literal ∨ k = .this ∨ k = .parenthesized ∨ k = .predefinedType ∨
      k.isNameStart = true := by
  cases k <;> simp_all [isPrimary, NodeKind.isExpr, NodeKind.isNameStart, NodeKind.isSimpleName]

theorem eq_of_isExpr {k : NodeKind} (h : k.isExpr = true) :
    isPrimary k = true ∨ k = .memberAccess ∨ k = .invocation := by
  cases k <;> simp_all [isPrimary, NodeKind.isExpr]

theorem primary?_this {w : Token} (hk : w.kind = .keyword) (hw : w.text = "this")
    (rest : List Token) :
    primary? expr fuel (w :: rest) = some (.node .this [.token w], rest) := by
  have htypeOf : typeOf? fuel (w :: rest) = none := typeOf?_eq_none (by simp [hw])
  have hliteral : literal? (w :: rest) = none :=
    literal?_eq_none (by simp [hk]) (by simp [hk]) (by simp [hw])
  have hthis : this? (w :: rest) = some (.node .this [.token w], rest) := by
    simp [this?, keyword?, hk, hw]
  simp [primary?, htypeOf, hliteral, hthis]

/-- A token that is no keyword and no literal begins a parenthesis or a name. -/
theorem primary?_of_kind {u : Token} (h : u.kind ∉ [.keyword, .number, .string])
    (ts : List Token) : primary? expr fuel (u :: ts) =
      (parenthesized? expr (u :: ts)).or (nameStart? (type? fuel) fuel (u :: ts)) := by
  obtain ⟨hk, hn, hs⟩ : u.kind ≠ .keyword ∧ u.kind ≠ .number ∧ u.kind ≠ .string := by
    simpa using h
  have htypeOf : typeOf? fuel (u :: ts) = none := typeOf?_eq_none (by simp [hk])
  have hliteral : literal? (u :: ts) = none := literal?_eq_none hn hs (by simp [hk])
  have hthis : this? (u :: ts) = none := this?_eq_none (by simp [hk])
  have hbuiltin : builtinType? (u :: ts) = none := builtinType?_eq_none (by simp [hk])
  simp [primary?, htypeOf, hliteral, hthis, hbuiltin]

theorem nameStart?_eq_none {type : Reader} {u : Token} {ts : List Token}
    (h : u.kind ≠ .identifier) : nameStart? type fuel (u :: ts) = none := by
  simp [nameStart?, aliasedName?, simpleName?, take?, h]

theorem primary?_openParen {u : Token} (h : u.kind = .openParen) (ts : List Token) :
    primary? expr fuel (u :: ts) = parenthesized? expr (u :: ts) := by
  rw [primary?_of_kind (by simp [h]), nameStart?_eq_none (by simp [h]), Option.or_none]

theorem primary?_identifier {i : Token} (h : i.kind = .identifier) (ts : List Token) :
    primary? expr fuel (i :: ts) = nameStart? (type? fuel) fuel (i :: ts) := by
  rw [primary?_of_kind (by simp [h]), parenthesized?_eq_none (by simp [h]), Option.none_or]

theorem primary?_builtin {w : Token} (hk : w.kind = .keyword) (hw : w.text ∈ builtinTypes)
    (rest : List Token) :
    primary? expr fuel (w :: rest) = some (.node .predefinedType [.token w], rest) := by
  have htypeOf : typeOf? fuel (w :: rest) = none :=
    typeOf?_eq_none fun _ hw' => absurd (hw' ▸ hw) (by decide)
  have hliteral : literal? (w :: rest) = none := by
    refine literal?_eq_none (by simp [hk]) (by simp [hk]) fun _ hw' => ?_
    have hdisjoint : ∀ x ∈ ["true", "false", "null"], x ∉ builtinTypes := by decide
    exact hdisjoint _ hw' hw
  have hthis : this? (w :: rest) = none :=
    this?_eq_none fun _ hw' => absurd (hw' ▸ hw) (by decide)
  have hparens : parenthesized? expr (w :: rest) = none := parenthesized?_eq_none (by simp [hk])
  have hbuiltin : builtinType? (w :: rest) = some (.node .predefinedType [.token w], rest) := by
    rw [builtinType?, keyword?_cons hk hw]
  simp [primary?, htypeOf, hliteral, hthis, hparens, hbuiltin]

theorem primary?_finds (hE : FindsExprs expr fuel) (h : FitsAs isPrimary t)
    (hlen : t.tokens.length ≤ fuel) :
    Finds [.lessThan, .colonColon] (primary? expr fuel) t := by
  intro rest hr
  obtain ⟨k, cs, rfl, hk⟩ := h.eq_node
  rcases eq_of_isPrimary hk with rfl | rfl | rfl | rfl | rfl | hk
  · have htypeOf := typeOf?_finds h.fits (by simpa using hlen) (hr.mono (by simp))
    simp only [primary?, htypeOf, Option.some_or]
  · have hliteral := literal?_finds h.fits (hr.mono (by simp))
    have htypeOf : typeOf? fuel ((Tree.node .literal cs).tokens ++ rest) = none := by
      obtain ⟨u, rfl, hu⟩ := children_of_literal h.fits
      refine typeOf?_eq_none fun hk hw => ?_
      simp [hk, hw] at hu
    simp only [primary?, htypeOf, hliteral, Option.none_or, Option.some_or]
  · obtain ⟨w, rfl, hk, hw⟩ := children_of_this h.fits
    exact primary?_this hk hw rest
  · obtain ⟨opening, e, closing, rfl, ho, he, hc⟩ := children_of_parenthesized h.fits
    have hinside : expr (e.tokens ++ closing :: rest) = some (e, closing :: rest) :=
      hE e he (by simp at hlen; omega) (by simp [hc, exprStops])
    simp [primary?_openParen ho, parenthesized?, take?_cons ho, take?_cons hc, hinside]
  · obtain ⟨w, rfl, hk, hw⟩ := children_of_predefinedType h.fits
    exact primary?_builtin hk hw rest
  · have hfit : FitsAs NodeKind.isNameStart (.node k cs) := ⟨h.fits, hk⟩
    have hname := nameStart?_finds (type?_finds fuel) hfit hlen hr
    obtain ⟨i, ts, hts, hi⟩ := tokens_name (hfit.mono NodeKind.isName_of_isNameStart)
    rw [hts, List.cons_append] at hname ⊢
    rw [primary?_identifier hi, hname]

theorem argument?_finds (hE : FindsExprs expr fuel) (h : FitsAs (· == .argument) t)
    (hlen : t.tokens.length < fuel) : Finds exprStops (argument? expr) t := by
  obtain ⟨k, cs, rfl, hk⟩ := h.eq_node
  obtain rfl : k = .argument := by simpa using hk
  obtain ⟨e, rfl, he⟩ := children_of_argument h.fits
  intro rest hr
  have hfind := hE e he (by simpa using hlen) hr
  simp [argument?, hfind]

/-- No expression begins with a closing parenthesis. -/
theorem expr?_closeParen (fuel : Nat) {closing : Token} (h : closing.kind = .closeParen)
    (ts : List Token) : expr? fuel (closing :: ts) = none := by
  cases fuel with
  | zero => rfl
  | succ fuel =>
      rw [expr?, primary?_of_kind (by simp [h]), parenthesized?_eq_none (by simp [h]),
        nameStart?_eq_none (by simp [h]), Option.none_or]

theorem argumentList?_finds (hE : FindsExprs expr fuel)
    (hnone : ∀ ⦃closing : Token⦄, closing.kind = .closeParen → ∀ ts, expr (closing :: ts) = none)
    {cs : List Tree} (h : (Tree.node .argumentList cs).Fits) (hlen : (tokensAll cs).length ≤ fuel) :
    Finds [] (argumentList? expr fuel) (.node .argumentList cs) := by
  obtain ⟨opening, closing, as, rfl, ho, hc, has⟩ := children_of_argumentList h
  intro rest _
  rw [tokensAll_enclosed, List.length_cons, List.length_append, List.length_singleton] at hlen
  rw [tokens_node, tokensAll_enclosed]
  rcases has with rfl | hlist
  · have harg : argument? expr (closing :: rest) = none := by rw [argument?, hnone hc]
    simp [argumentList?, take?_cons ho, harg, take?_cons hc]
  · have hfits := listOf_fits hlist
    have hcount := length_le_tokensAll hfits
    have hfind : ∀ u ∈ as, FitsAs (· == .argument) u → Finds exprStops (argument? expr) u := by
      intro u hu hfit
      have := length_tokens_le hu
      exact argument?_finds hE hfit (by omega)
    have hstop : Stops (.comma :: exprStops) (closing :: rest) := by simp [hc, exprStops]
    cases hlist with
    | @cons t ts ht hts =>
        have hfirst := hfind t (by simp) ht
          (stops_of_moreOf (by decide) hts (hstop.mono (by simp)))
        have hlen' : ts.length ≤ fuel := by
          rw [List.length_cons] at hcount
          omega
        have hmore := moreItems?_finds (by decide) hts (fun u hu => hfind u (by simp [hu])) hlen'
          hstop
        simp [argumentList?, take?_cons ho, hfirst, hmore, take?_cons hc]

theorem argumentList?_eq_none {ts : List Token} (h : Stops [.openParen] ts) :
    argumentList? expr fuel ts = none := by
  simp [argumentList?, take?_eq_none h]

theorem tokens_argumentList {cs : List Tree} (h : (Tree.node .argumentList cs).Fits) :
    ∃ opening ts, tokensAll cs = opening :: ts ∧ opening.kind = .openParen := by
  obtain ⟨opening, closing, as, rfl, ho, -⟩ := children_of_argumentList h
  exact ⟨opening, _, tokensAll_enclosed _ _ _, ho⟩

theorem suffix?_eq_none {left : Tree} {ts : List Token} (h : Stops [.dot, .openParen] ts) :
    suffix? expr fuel left ts = none := by
  rw [suffix?, dotName?_eq_none (h.mono (by simp)), argumentList?_eq_none (h.mono (by simp))]

end Expressions

theorem expr?_reaches {fuel : Nat} (hE : FindsExprs (expr? fuel) fuel) {t : Tree}
    (h : FitsAs NodeKind.isExpr t) (hlen : t.tokens.length ≤ fuel) {rest : List Token}
    (hr : Stops [.lessThan, .colonColon] rest) :
    Reaches (expr? (fuel + 1)) (suffix? (expr? fuel) fuel) fuel t rest := by
  obtain ⟨hfits, hof⟩ := h
  induction hfits generalizing rest with
  | token t => exact absurd hof (isOf_token _ _)
  | @node k fs cs ha hf hc ih =>
      have hfits : (Tree.node k cs).Fits := .node ha hf hc
      rcases eq_of_isExpr hof with hp | rfl | rfl
      · have hprimary := primary?_finds hE ⟨hfits, hp⟩ hlen hr
        exact ⟨fuel, by omega, by simp only [expr?, hprimary]⟩
      · obtain ⟨e, dot, r, rfl, he, hd, hright⟩ := children_of_memberAccess hfits
        have hleft : Reaches (expr? (fuel + 1)) (suffix? (expr? fuel) fuel) fuel e
            ((dot :: r.tokens) ++ rest) :=
          ih e (by simp) (by simp at hlen; omega) (by simp [hd]) he.isOf
        have haccess : dotName? .memberAccess (type? fuel) fuel e (dot :: r.tokens ++ rest) =
            some (.node .memberAccess [e, .token dot, r], rest) :=
          dotName?_finds (type?_finds fuel) hd hright (by simp at hlen; omega) (hr.mono (by simp))
        exact hleft.step (by rw [suffix?, haccess]) (by simp) (by simp) hlen
      · obtain ⟨e, as, rfl, he, has⟩ := children_of_invocation hfits
        have hlist := argumentList?_finds hE (fun _ h => expr?_closeParen fuel h) has
          (by simp at hlen; omega) (hr.mono (by simp))
        obtain ⟨opening, ts, hts, ho⟩ := tokens_argumentList has
        have hleft : Reaches (expr? (fuel + 1)) (suffix? (expr? fuel) fuel) fuel e
            (tokensAll as ++ rest) :=
          ih e (by simp) (by simp at hlen; omega) (by simp [hts, ho]) he.isOf
        have hdot : dotName? .memberAccess (type? fuel) fuel e (tokensAll as ++ rest) = none :=
          dotName?_eq_none (by simp [hts, ho])
        rw [tokens_node] at hlist
        exact hleft.step (by rw [suffix?, hdot, hlist]) (by simp) (by simp [hts]) hlen

/-- The reader of expressions finds every fitting expression with fewer tokens than there is
fuel. -/
theorem expr?_finds (fuel : Nat) : FindsExprs (expr? fuel) fuel := by
  induction fuel with
  | zero => exact fun t _ hlen => absurd hlen (Nat.not_lt_zero _)
  | succ fuel ih =>
      intro t ht hlen rest hr
      have hreach := expr?_reaches ih ht (Nat.le_of_lt_succ hlen) (hr.mono (by simp [exprStops]))
      exact hreach.stop (suffix?_eq_none (hr.mono (by simp [exprStops])))

/-! ## Inside a statement -/

/-- What stands in a type or in an expression: no statement, and nothing that makes one. -/
def isInnerFace : Face → Bool
  | .word w => w != "using"
  | .token k => k != .equals && k != .semicolon
  | .node k => k.isInner

@[simp] theorem isInnerFace_word (w : String) : isInnerFace (.word w) = (w != "using") := rfl

@[simp] theorem isInnerFace_token (k : TokenKind) :
    isInnerFace (.token k) = (k != .equals && k != .semicolon) := rfl

@[simp] theorem isInnerFace_node (k : NodeKind) : isInnerFace (.node k) = k.isInner := rfl

theorem isInnerFace_of_mem_listed {ks : List NodeKind} (h : ∀ k ∈ ks, k.isInner = true) :
    ∀ f ∈ Face.listed ks, isInnerFace f = true := by
  intro f hf
  rcases Face.mem_listed hf with rfl | ⟨k, hk, rfl⟩
  · rfl
  · exact h k hk

theorem isInnerFace_of_mem_enclosed {k l : TokenKind} {fs : List Face}
    (hk : isInnerFace (.token k) = true) (hl : isInnerFace (.token l) = true)
    (h : ∀ f ∈ fs, isInnerFace f = true) :
    ∀ f ∈ .token k :: fs ++ [.token l], isInnerFace f = true := by
  intro f hf
  rcases List.mem_append.mp hf with hf | hf
  · rcases List.mem_cons.mp hf with rfl | hf
    · exact hk
    · exact h f hf
  · rwa [List.mem_singleton.mp hf]

/-- The children of a node that is no statement are none either. -/
theorem isInnerFace_of_arranged {k : NodeKind} {fs : List Face} (h : Arranged k fs)
    (hk : k.isInner = true) : ∀ f ∈ fs, isInnerFace f = true := by
  have hexpr := @NodeKind.isInner_of_isExpr
  have htype := @NodeKind.isInner_of_isType
  have hname := @NodeKind.isInner_of_isSimpleName
  have hlist := @isInnerFace_of_mem_listed
  cases h with
  | compilationUnit => cases hk
  | usingDirective => cases hk
  | localDeclaration => cases hk
  | expressionStatement => cases hk
  | invocation h => simpa using ⟨hexpr h, rfl⟩
  | argumentList h =>
      exact isInnerFace_of_mem_enclosed rfl rfl (hlist fun j hj => by rw [h j hj]; rfl)
  | argument h => simpa using hexpr h
  | memberAccess he hn => simpa using ⟨hexpr he, hname hn⟩
  | typeOf h => simpa using htype h
  | parenthesized h => simpa using hexpr h
  | constant h =>
      have hne : ∀ w ∈ ["true", "false", "null"], w ≠ "using" := by decide
      simpa using hne _ h
  | genericName => simp [NodeKind.isInner, NodeKind.isStatement]
  | typeArgumentList _ h =>
      exact isInnerFace_of_mem_enclosed rfl rfl (hlist fun j hj => htype (h j hj))
  | qualifiedName hl hr => simpa using ⟨htype (NodeKind.isType_of_isName hl), hname hr⟩
  | aliasQualifiedName h => simpa using ⟨rfl, hname h⟩
  | predefinedType h =>
      have hne : ∀ w ∈ builtinTypes, w ≠ "using" := by decide
      simpa using hne _ h
  | arrayType h => simpa using ⟨htype h, rfl⟩
  | rankSpecifier n =>
      exact isInnerFace_of_mem_enclosed rfl rfl fun f hf => by rw [List.eq_of_mem_replicate hf]; rfl
  | nullableType h => simpa using htype h
  | pointerType h => simpa using htype h
  | tupleType _ h =>
      exact isInnerFace_of_mem_enclosed rfl rfl (hlist fun j hj => by rw [h j hj]; rfl)
  | tupleElement h => simpa using htype h
  | namedElement h => simpa using htype h
  | _ => simp

theorem mem_tokensAll {u : Token} {cs : List Tree} :
    u ∈ tokensAll cs ↔ ∃ c ∈ cs, u ∈ c.tokens := by
  induction cs with
  | nil => simp
  | cons c cs ih => simp [ih]

/-- No token of a type or an expression makes a statement. -/
theorem isInnerFace_of_mem_tokens {t : Tree} (h : t.Fits) (ht : isInnerFace t.face = true) :
    ∀ u ∈ t.tokens, isInnerFace u.face = true := by
  induction h with
  | token t => simpa using ht
  | @node k fs cs ha hf hc ih =>
      intro u hu
      rw [tokens_node] at hu
      obtain ⟨c, hcs, huc⟩ := mem_tokensAll.mp hu
      have hface : c.face ∈ fs := hf ▸ List.mem_map_of_mem hcs
      exact ih c hcs (isInnerFace_of_arranged ha ht c.face hface) u huc

/-! ## Statements -/

section Statements

variable {fuel : Nat} {t : Tree}

theorem isInnerFace_of_mem_type (h : FitsAs NodeKind.isType t) :
    ∀ u ∈ t.tokens, isInnerFace u.face = true := by
  obtain ⟨k, hface, hk⟩ := h.isOf.face_eq
  exact isInnerFace_of_mem_tokens h.fits (by rw [hface]; exact NodeKind.isInner_of_isType hk)

theorem isInnerFace_of_mem_expr (h : FitsAs NodeKind.isExpr t) :
    ∀ u ∈ t.tokens, isInnerFace u.face = true := by
  obtain ⟨k, hface, hk⟩ := h.isOf.face_eq
  exact isInnerFace_of_mem_tokens h.fits (by rw [hface]; exact NodeKind.isInner_of_isExpr hk)

theorem using?_finds {cs : List Tree} (h : (Tree.node .usingDirective cs).Fits)
    (hlen : (tokensAll cs).length ≤ fuel) : Finds [] (using? fuel) (.node .usingDirective cs) := by
  obtain ⟨word, n, semi, rfl, ⟨hk, hw⟩, hn, hs⟩ := children_of_usingDirective h
  intro rest _
  have hname : name? (type? fuel) fuel (n.tokens ++ semi :: rest) = some (n, semi :: rest) :=
    name?_finds (type?_finds fuel) hn (by simp at hlen; omega) (by simp [hs])
  have hword : keyword? ["using"] (word :: (n.tokens ++ semi :: rest)) =
      some (word, n.tokens ++ semi :: rest) := keyword?_cons hk (by simp [hw])
  simp [using?, hword, hname, take?_cons hs]

/-- A type or an expression is not taken for a using directive. -/
theorem using?_eq_none {ts : List Token} (h : t.Fits)
    (hinner : ∀ u ∈ t.tokens, isInnerFace u.face = true) : using? fuel (t.tokens ++ ts) = none := by
  obtain ⟨u, us, hus⟩ := List.exists_cons_of_ne_nil h.tokens_ne_nil
  have hu := hinner u (by simp [hus])
  have hword : keyword? ["using"] (u :: (us ++ ts)) = none := by
    refine keyword?_eq_none fun hk => ?_
    simpa [Token.face_of_keyword hk] using hu
  rw [hus, List.cons_append, using?, hword]

theorem localDeclaration?_finds {cs : List Tree} (h : (Tree.node .localDeclaration cs).Fits)
    (hlen : (tokensAll cs).length ≤ fuel) :
    Finds [] (localDeclaration? fuel) (.node .localDeclaration cs) := by
  obtain ⟨u, i, equals, e, semi, rfl, hu, hi, hq, he, hs⟩ := children_of_localDeclaration h
  intro rest _
  simp only [tokensAll_cons, tokens_token, tokensAll_nil, List.append_nil, List.length_append,
    List.length_cons, List.length_nil] at hlen
  have htype : type? fuel (u.tokens ++ i :: equals :: (e.tokens ++ semi :: rest)) =
      some (u, i :: equals :: (e.tokens ++ semi :: rest)) :=
    type?_finds fuel u hu (by omega) (by simp [hi, typeStops])
  have hvalue : expr? fuel (e.tokens ++ semi :: rest) = some (e, semi :: rest) :=
    expr?_finds fuel e he (by omega) (by simp [hs, exprStops])
  simp [localDeclaration?, htype, take?_cons hi, take?_cons hq, hvalue, take?_cons hs]

theorem expressionStatement?_finds {cs : List Tree}
    (h : (Tree.node .expressionStatement cs).Fits) (hlen : (tokensAll cs).length ≤ fuel) :
    Finds [] (expressionStatement? fuel) (.node .expressionStatement cs) := by
  obtain ⟨e, semi, rfl, he, hs⟩ := children_of_expressionStatement h
  intro rest _
  have hvalue : expr? fuel (e.tokens ++ semi :: rest) = some (e, semi :: rest) :=
    expr?_finds fuel e he (by simp at hlen; omega) (by simp [hs, exprStops])
  simp [expressionStatement?, hvalue, take?_cons hs]

/-- Two splits of a list at its first element with a property are the same. -/
theorem split_unique {α : Type} {p : α → Prop} {as bs cs ds : List α} {x y : α}
    (h : as ++ x :: cs = bs ++ y :: ds) (ha : ∀ a ∈ as, ¬ p a) (hb : ∀ b ∈ bs, ¬ p b) (hx : p x)
    (hy : p y) : x = y := by
  induction as generalizing bs with
  | nil =>
      cases bs with
      | nil => simp_all
      | cons b bs =>
          obtain ⟨rfl, -⟩ : x = b ∧ _ := by simpa using h
          exact absurd hx (hb x (by simp))
  | cons a as ih =>
      cases bs with
      | nil =>
          obtain ⟨rfl, -⟩ : a = y ∧ _ := by simpa using h
          exact absurd hy (ha a (by simp))
      | cons b bs =>
          obtain ⟨-, htail⟩ : a = b ∧ as ++ x :: cs = bs ++ y :: ds := by simpa using h
          exact ih htail (fun a ha' => ha a (by simp [ha'])) (fun b hb' => hb b (by simp [hb']))

/-- An expression before a semicolon is not taken for a declaration: the first token outside of
types and expressions would have to be an equals sign. -/
theorem localDeclaration?_eq_none {e : Tree} {semi : Token} {ts : List Token}
    (he : FitsAs NodeKind.isExpr e) (hs : semi.kind = .semicolon) :
    localDeclaration? fuel (e.tokens ++ semi :: ts) = none := by
  rw [Option.eq_none_iff_forall_not_mem]
  rintro ⟨d, rest⟩ hd
  obtain ⟨u, i, equals, value, semi', mid, hu, hi, hq, -, -, -⟩ := localDeclaration?_eq_some hd
  have hu := type?_sound fuel hu
  have hsplit : e.tokens ++ semi :: ts = (u.tokens ++ [i]) ++ equals :: mid := by
    simpa using hu.tokens
  have hkinds : semi = equals := by
    refine split_unique (p := fun v : Token => isInnerFace v.face ≠ true) hsplit ?_ ?_ ?_ ?_
    · exact fun v hv => not_not_intro (isInnerFace_of_mem_expr he v hv)
    · intro v hv
      rcases List.mem_append.mp hv with hv | hv
      · exact not_not_intro (isInnerFace_of_mem_type ⟨hu.fits, hu.isOf⟩ v hv)
      · rw [List.mem_singleton.mp hv, Token.face_of_kind hi (by decide)]
        decide
    · rw [Token.face_of_kind hs (by decide)]
      decide
    · rw [Token.face_of_kind hq (by decide)]
      decide
  rw [hkinds, hq] at hs
  cases hs

/-- The reader of statements finds every fitting statement, whatever follows it. -/
theorem statement?_finds (h : FitsAs NodeKind.isStatement t) (hlen : t.tokens.length ≤ fuel) :
    Finds [] (statement? fuel) t := by
  intro rest hr
  obtain ⟨k, cs, rfl, hk⟩ := h.eq_node
  have hlen' : (tokensAll cs).length ≤ fuel := by simpa using hlen
  obtain rfl | rfl | rfl :
      k = .usingDirective ∨ k = .localDeclaration ∨ k = .expressionStatement := by
    cases k <;> simp_all [NodeKind.isStatement]
  · rw [statement?, using?_finds h.fits hlen' hr, Option.some_or, Option.some_or]
  · have husing : using? fuel ((Tree.node .localDeclaration cs).tokens ++ rest) = none := by
      obtain ⟨u, i, equals, e, semi, rfl, hu, -⟩ := children_of_localDeclaration h.fits
      have hnone : using? fuel (u.tokens ++ i :: equals :: (e.tokens ++ semi :: rest)) = none :=
        using?_eq_none hu.fits (isInnerFace_of_mem_type hu)
      simpa using hnone
    rw [statement?, husing, localDeclaration?_finds h.fits hlen' hr, Option.none_or,
      Option.some_or]
  · have hfind := expressionStatement?_finds h.fits hlen' hr
    obtain ⟨e, semi, rfl, he, hs⟩ := children_of_expressionStatement h.fits
    have hstart : (Tree.node .expressionStatement [e, .token semi]).tokens ++ rest =
        e.tokens ++ semi :: rest := by simp
    rw [hstart] at hfind ⊢
    rw [statement?, using?_eq_none he.fits (isInnerFace_of_mem_expr he),
      localDeclaration?_eq_none he hs, hfind, Option.none_or, Option.none_or]

end Statements

/-- A run of trees is read back in front of whatever follows it. -/
theorem many_append {item : Reader} {ts : List Tree} (h : ∀ t ∈ ts, Finds [] item t) {fuel : Nat}
    (hlen : ts.length ≤ fuel) (rest : List Token) : many item fuel (tokensAll ts ++ rest) =
      (ts ++ (many item (fuel - ts.length) rest).1, (many item (fuel - ts.length) rest).2) := by
  induction ts generalizing fuel with
  | nil => rfl
  | cons t ts ih =>
      obtain ⟨fuel, rfl⟩ : ∃ m, fuel = m + 1 := ⟨fuel - 1, by simp at hlen; omega⟩
      have ht := h t (by simp) (show Stops [] (tokensAll ts ++ rest) by simp [Stops])
      have hts := ih (fun u hu => h u (by simp [hu])) (Nat.le_of_succ_le_succ hlen)
      simp [many, ht, hts]

theorem many_nil {item : Reader} (hnil : item [] = none) (fuel : Nat) :
    many item fuel [] = ([], []) := by
  cases fuel with
  | zero => rfl
  | succ fuel => simp [many, hnil]

theorem statement?_nil (fuel : Nat) : statement? fuel [] = none := by
  rw [Option.eq_none_iff_forall_not_mem]
  rintro ⟨t, rest⟩ h
  have h := statement?_sound fuel h
  have hnil : t.tokens = [] := by
    have := h.tokens.symm
    simp_all
  exact h.fits.tokens_ne_nil hnil

/-- The tokens of fitting statements are read back as these statements, whatever follows them. -/
theorem statements_append {ss : List Tree} (h : ∀ s ∈ ss, FitsAs NodeKind.isStatement s)
    {fuel : Nat} (hfuel : (tokensAll ss).length ≤ fuel) (rest : List Token) :
    ∃ n, many (statement? fuel) fuel (tokensAll ss ++ rest) =
      (ss ++ (many (statement? fuel) n rest).1, (many (statement? fuel) n rest).2) := by
  refine ⟨_, many_append (fun s hs => statement?_finds (h s hs) ?_) ?_ rest⟩
  · exact Nat.le_trans (length_tokens_le hs) hfuel
  · exact Nat.le_trans (length_le_tokensAll fun s hs => (h s hs).fits) hfuel

theorem statements_finds {ss : List Tree} (h : ∀ s ∈ ss, FitsAs NodeKind.isStatement s)
    {fuel : Nat} (hfuel : (tokensAll ss).length ≤ fuel) :
    many (statement? fuel) fuel (tokensAll ss) = (ss, []) := by
  obtain ⟨n, hmany⟩ := statements_append h hfuel []
  simpa [many_nil (statement?_nil fuel)] using hmany

/-! ## Texts -/

/-- The text of a fitting document is read as that document when it is cut into its tokens. -/
theorem document_of_tokens {source : String} {ss : List Tree} {trivia : List Char}
    (h : ∀ s ∈ ss, FitsAs NodeKind.isStatement s)
    (ht : Lexical.tokens source.toList = (tokensAll ss, trivia))
    (hl : leading trivia = (trivia, [])) :
    document source = .ok (.node .compilationUnit (ss ++ [endOfFile (String.ofList trivia)])) :=
  document_eq_ok.mpr ⟨_, trivia, ss, ht, hl, statements_finds h (Nat.le_succ _), rfl⟩

theorem expression_of_tokens {source : String} {e : Tree} {trivia : List Char}
    (h : FitsAs NodeKind.isExpr e) (hb : source.toList.all Text.isBlank = false)
    (ht : Lexical.tokens source.toList = (e.tokens, trivia))
    (hl : leading trivia = (trivia, [])) :
    expression source = .ok (e.appendTrailing (String.ofList trivia)) := by
  have hfind := expr?_finds (e.tokens.length + 1) e h (Nat.lt_succ_self _) (Stops.nil _)
  rw [List.append_nil] at hfind
  exact expression_eq_ok.mpr ⟨hb, _, trivia, e, ht, hl, hfind, rfl⟩

end CallFill.Grammar
