import CallFill.Proofs.Shape
import CallFill.Proofs.Trailing

/-!
# Readers find every fitting tree

A fitting tree is read back from its own tokens, whatever follows them, as long as what follows
cannot continue the tree.  What can continue a tree depends on its class: a `<` continues an
identifier, a `.` a name, a mark a type, an argument list an expression.

Repeated readers build a tree from its innermost left part outwards, so for them the statement
goes through the left parts: after the tokens of any left part they hold that part, and have fuel
for the rounds to come (`Reaches`).
-/

namespace CallFill.Grammar

open CallFill.Tree

/-- The tokens do not begin with one of these kinds. -/
def Stops (ks : List TokenKind) (ts : List Token) : Prop := ∀ t ∈ ts.head?, t.kind ∉ ks

/-- The reader gives back the tree before all tokens that cannot continue it. -/
def Finds (ks : List TokenKind) (r : Reader) (t : Tree) : Prop :=
  ∀ ⦃rest : List Token⦄, Stops ks rest → r (t.tokens ++ rest) = some (t, rest)

@[simp] theorem Stops.cons_iff {ks : List TokenKind} {t : Token} {ts : List Token} :
    Stops ks (t :: ts) ↔ t.kind ∉ ks := by
  simp [Stops]

@[simp] theorem Stops.nil (ks : List TokenKind) : Stops ks [] := by
  simp [Stops]

theorem Stops.mono {ks js : List TokenKind} {ts : List Token} (h : Stops ks ts)
    (hsub : js ⊆ ks) : Stops js ts := fun t ht hk => h t ht (hsub hk)

/-! ## Single tokens -/

theorem take?_cons {k : TokenKind} {t : Token} {ts : List Token} (h : t.kind = k) :
    take? k (t :: ts) = some (t, ts) := by
  simp [take?, h]

theorem take?_eq_none {k : TokenKind} {ts : List Token} (h : Stops [k] ts) :
    take? k ts = none := by
  cases ts with
  | nil => rfl
  | cons t ts =>
      have hk : t.kind ≠ k := by simpa using h
      simp [take?, hk]

theorem keyword?_cons {ws : List String} {t : Token} {ts : List Token} (hk : t.kind = .keyword)
    (hw : t.text ∈ ws) : keyword? ws (t :: ts) = some (t, ts) := by
  simp [keyword?, hk, hw]

theorem keyword?_eq_none {ws : List String} {t : Token} {ts : List Token}
    (h : t.kind = .keyword → t.text ∉ ws) : keyword? ws (t :: ts) = none := by
  simpa [keyword?] using h

/-! ## Repetitions -/

/-- What follows a list with commas is a comma or what follows the list. -/
theorem stops_of_moreOf {p : NodeKind → Bool} {ks : List TokenKind} (hk : .comma ∉ ks)
    {ts : List Tree} (h : MoreOf p ts) {rest : List Token} (hr : Stops ks rest) :
    Stops ks (tokensAll ts ++ rest) := by
  cases h with
  | nil => simpa using hr
  | cons hc _ _ => simpa [hc] using hk

theorem moreItems?_finds {p : NodeKind → Bool} {ks : List TokenKind} {item : Reader}
    (hk : .comma ∉ ks) {ts : List Tree} (h : MoreOf p ts)
    (hi : ∀ t ∈ ts, FitsAs p t → Finds ks item t) {fuel : Nat} (hfuel : ts.length ≤ fuel)
    {rest : List Token} (hr : Stops (.comma :: ks) rest) :
    moreItems? item fuel (tokensAll ts ++ rest) = some (ts, rest) := by
  induction h generalizing fuel with
  | nil =>
      have hcomma : take? .comma rest = none := take?_eq_none (hr.mono (by simp))
      cases fuel with
      | zero => rfl
      | succ fuel => simp [moreItems?, hcomma]
  | @cons comma t ts hc ht hts ih =>
      simp only [List.length_cons] at hfuel
      obtain ⟨fuel, rfl⟩ : ∃ m, fuel = m + 1 := ⟨fuel - 1, by omega⟩
      have hlen : ts.length ≤ fuel := by omega
      have hks : Stops ks rest := hr.mono (by simp)
      have hitem := hi t (by simp) ht (stops_of_moreOf hk hts hks)
      have hmore := ih (fun u hu => hi u (by simp [hu])) hlen
      simp [moreItems?, take?_cons hc, hitem, hmore]

theorem items?_finds {p : NodeKind → Bool} {ks : List TokenKind} {item : Reader}
    (hk : .comma ∉ ks) {ts : List Tree} (h : ListOf p ts)
    (hi : ∀ t ∈ ts, FitsAs p t → Finds ks item t) {fuel : Nat} (hfuel : ts.length ≤ fuel)
    {rest : List Token} (hr : Stops (.comma :: ks) rest) :
    items? item fuel (tokensAll ts ++ rest) = some (ts, rest) := by
  cases h with
  | @cons t ts ht hts =>
      have hlen : ts.length ≤ fuel := Nat.le_of_succ_le hfuel
      have hks : Stops ks rest := hr.mono (by simp)
      have hitem := hi t (by simp) ht (stops_of_moreOf hk hts hks)
      have hmore := moreItems?_finds hk hts (fun u hu => hi u (by simp [hu])) hlen hr
      simp [items?, hitem, hmore]

/-- Once the tokens of `t` are taken, the repetition holds `t` and goes on behind it, with fuel
for every token that it was given fuel for and that is not in `t`. -/
def Reaches (r : Reader) (step : Tree → Reader) (fuel : Nat) (t : Tree) (rest : List Token) :
    Prop :=
  ∃ left, fuel ≤ left + t.tokens.length ∧
    r (t.tokens ++ rest) = some (extend step left t rest)

theorem Reaches.step {r : Reader} {step : Tree → Reader} {fuel : Nat} {t u : Tree}
    {ts rest : List Token} (h : Reaches r step fuel t (ts ++ rest))
    (hs : step t (ts ++ rest) = some (u, rest)) (hu : u.tokens = t.tokens ++ ts) (hne : ts ≠ [])
    (hfuel : u.tokens.length ≤ fuel) : Reaches r step fuel u rest := by
  obtain ⟨left, hleft, hr⟩ := h
  have hpos : 0 < ts.length := List.length_pos_iff.mpr hne
  have hlen : u.tokens.length = t.tokens.length + ts.length := by simp [hu]
  obtain ⟨left, rfl⟩ : ∃ m, left = m + 1 := ⟨left - 1, by omega⟩
  refine ⟨left, by omega, ?_⟩
  rw [hu, List.append_assoc, hr]
  simp [extend, hs]

theorem Reaches.stop {r : Reader} {step : Tree → Reader} {fuel : Nat} {t : Tree}
    {rest : List Token} (h : Reaches r step fuel t rest) (hs : step t rest = none) :
    r (t.tokens ++ rest) = some (t, rest) := by
  obtain ⟨left, -, hr⟩ := h
  rw [hr]
  cases left with
  | zero => rfl
  | succ left => simp [extend, hs]

/-- Every tree in a fitting list has a token of its own. -/
theorem length_le_tokensAll {ts : List Tree} (h : ∀ t ∈ ts, t.Fits) :
    ts.length ≤ (tokensAll ts).length := by
  induction ts with
  | nil => simp
  | cons t ts ih =>
      have ht : 0 < t.tokens.length := List.length_pos_iff.mpr (h t (by simp)).tokens_ne_nil
      have hts := ih fun u hu => h u (by simp [hu])
      simp only [List.length_cons, tokensAll_cons, List.length_append]
      omega

theorem length_tokens_le {ts : List Tree} {t : Tree} (h : t ∈ ts) :
    t.tokens.length ≤ (tokensAll ts).length := by
  induction ts with
  | nil => simp at h
  | cons u ts ih =>
      simp only [tokensAll_cons, List.length_append]
      rcases List.mem_cons.mp h with rfl | h
      · omega
      · have := ih h
        omega

theorem tokensAll_enclosed (a b : Token) (ds : List Tree) :
    tokensAll (.token a :: ds ++ [.token b]) = a :: (tokensAll ds ++ [b]) := by
  simp

/-! ## Names -/

/-- The kinds of token that continue a type. -/
def typeStops : List TokenKind :=
  [.lessThan, .colonColon, .dot, .question, .asterisk, .openBracket]

theorem listOf_fits {p : NodeKind → Bool} {ts : List Tree} (h : ListOf p ts) :
    ∀ t ∈ ts, t.Fits := by
  cases h with
  | cons ht hts => simpa using ⟨ht.fits, hts.faces.1⟩

section Names

variable {type : Reader} {fuel : Nat} {t : Tree}

/-- The types between brackets are found as long as they have fewer tokens than there is fuel. -/
abbrev FindsTypes (type : Reader) (fuel : Nat) : Prop :=
  ∀ u, FitsAs NodeKind.isType u → u.tokens.length < fuel → Finds typeStops type u

theorem typeArguments?_finds (hT : FindsTypes type fuel) {cs : List Tree}
    (h : (Tree.node .typeArgumentList cs).Fits) (hlen : (tokensAll cs).length ≤ fuel) :
    Finds [] (typeArguments? type fuel) (.node .typeArgumentList cs) := by
  obtain ⟨less, greater, types, rfl, hl, hg, hlist⟩ := children_of_typeArgumentList h
  intro rest _
  rw [tokensAll_enclosed, List.length_cons, List.length_append, List.length_singleton] at hlen
  have hcount := length_le_tokensAll (listOf_fits hlist)
  have hitems : items? type fuel (tokensAll types ++ greater :: rest) =
      some (types, greater :: rest) := by
    refine items?_finds (by decide) hlist (fun u hu hfit => hT u hfit ?_) (by omega) ?_
    · have := length_tokens_le hu
      omega
    · simp [hg, typeStops]
  simp [typeArguments?, take?_cons hl, take?_cons hg, hitems]

theorem typeArguments?_eq_none {ts : List Token} (h : Stops [.lessThan] ts) :
    typeArguments? type fuel ts = none := by
  simp [typeArguments?, take?_eq_none h]

/-- The tokens of a simple name begin with an identifier, and no `::` follows it. -/
theorem tokens_simpleName (h : FitsAs NodeKind.isSimpleName t) :
    ∃ i ts, t.tokens = i :: ts ∧ i.kind = .identifier ∧
      ∀ rest, Stops [.colonColon] rest → Stops [.colonColon] (ts ++ rest) := by
  obtain ⟨k, cs, rfl, hk⟩ := h.eq_node
  cases k <;> try cases hk
  case identifierName =>
    obtain ⟨i, rfl, hi⟩ := children_of_identifierName h.fits
    exact ⟨i, [], by simp, hi, fun rest hr => hr⟩
  case genericName =>
    obtain ⟨i, as, rfl, hi, has⟩ := children_of_genericName h.fits
    obtain ⟨less, greater, types, rfl, hl, -, -⟩ := children_of_typeArgumentList has
    exact ⟨i, less :: (tokensAll types ++ [greater]), by simp, hi, by simp [hl]⟩

theorem simpleName?_finds (hT : FindsTypes type fuel) (h : FitsAs NodeKind.isSimpleName t)
    (hlen : t.tokens.length ≤ fuel) : Finds [.lessThan] (simpleName? type fuel) t := by
  obtain ⟨k, cs, rfl, hk⟩ := h.eq_node
  intro rest hr
  cases k <;> try cases hk
  case identifierName =>
    obtain ⟨i, rfl, hi⟩ := children_of_identifierName h.fits
    simp [simpleName?, take?_cons hi, typeArguments?_eq_none hr]
  case genericName =>
    obtain ⟨i, as, rfl, hi, has⟩ := children_of_genericName h.fits
    have hargs := typeArguments?_finds hT has (by simp at hlen; omega) (Stops.mono hr (by simp))
    rw [tokens_node] at hargs
    simp [simpleName?, take?_cons hi, hargs]

theorem aliasedName?_finds (hT : FindsTypes type fuel) {cs : List Tree}
    (h : (Tree.node .aliasQualifiedName cs).Fits) (hlen : (tokensAll cs).length ≤ fuel) :
    Finds [.lessThan] (aliasedName? type fuel) (.node .aliasQualifiedName cs) := by
  obtain ⟨i, colons, r, rfl, hi, hc, hright⟩ := children_of_aliasQualifiedName h
  intro rest hr
  have hname := simpleName?_finds hT hright (by simp at hlen; omega) hr
  simp [aliasedName?, take?_cons hi, take?_cons hc, hname]

theorem nameStart?_finds (hT : FindsTypes type fuel) (h : FitsAs NodeKind.isNameStart t)
    (hlen : t.tokens.length ≤ fuel) :
    Finds [.lessThan, .colonColon] (nameStart? type fuel) t := by
  intro rest hr
  by_cases hs : t.isOf NodeKind.isSimpleName
  · have hfit : FitsAs NodeKind.isSimpleName t := ⟨h.fits, hs⟩
    obtain ⟨i, ts, ht, hi, hstop⟩ := tokens_simpleName hfit
    have halias : aliasedName? type fuel (t.tokens ++ rest) = none := by
      have hcolons := take?_eq_none (hstop rest (hr.mono (by simp)))
      simp [ht, aliasedName?, take?_cons hi, hcolons]
    rw [nameStart?, halias, Option.none_or]
    exact simpleName?_finds hT hfit hlen (hr.mono (by simp))
  · obtain ⟨k, cs, rfl, hk⟩ := h.eq_node
    obtain rfl : k = .aliasQualifiedName := by
      simpa [NodeKind.isNameStart, show k.isSimpleName = false by simpa using hs] using hk
    have halias := aliasedName?_finds hT h.fits (by simpa using hlen) (hr.mono (by simp))
    rw [nameStart?, halias, Option.some_or]

theorem dotName?_finds {k : NodeKind} (hT : FindsTypes type fuel) {left r : Tree} {dot : Token}
    (hd : dot.kind = .dot) (h : FitsAs NodeKind.isSimpleName r) (hlen : r.tokens.length ≤ fuel)
    {rest : List Token} (hr : Stops [.lessThan] rest) :
    dotName? k type fuel left (dot :: r.tokens ++ rest) =
      some (.node k [left, .token dot, r], rest) := by
  have hname := simpleName?_finds hT h hlen hr
  simp [dotName?, take?_cons hd, hname]

theorem dotName?_eq_none {k : NodeKind} {left : Tree} {ts : List Token} (h : Stops [.dot] ts) :
    dotName? k type fuel left ts = none := by
  simp [dotName?, take?_eq_none h]

theorem name?_reaches (hT : FindsTypes type fuel) (h : FitsAs NodeKind.isName t)
    (hlen : t.tokens.length ≤ fuel) {rest : List Token}
    (hr : Stops [.lessThan, .colonColon] rest) :
    Reaches (name? type fuel) (dotName? .qualifiedName type fuel) fuel t rest := by
  obtain ⟨hfits, hof⟩ := h
  induction hfits generalizing rest with
  | token t => exact absurd hof (isOf_token _ _)
  | @node k fs cs ha hf hc ih =>
      have hfits : (Tree.node k cs).Fits := .node ha hf hc
      by_cases hs : k.isNameStart = true
      · have hstart := nameStart?_finds hT ⟨hfits, hs⟩ hlen hr
        exact ⟨fuel, by omega, by simp only [name?, hstart]⟩
      · obtain rfl : k = .qualifiedName := by
          cases k <;> simp_all [NodeKind.isName, NodeKind.isNameStart, NodeKind.isSimpleName]
        obtain ⟨l, dot, r, rfl, hl, hd, hright⟩ := children_of_qualifiedName hfits
        have hlen' := hlen
        simp only [tokens_node, tokensAll_cons, tokensAll_nil, tokens_token, List.append_nil,
          List.length_append, List.length_cons, List.length_nil] at hlen'
        have hleft : Reaches (name? type fuel) (dotName? .qualifiedName type fuel) fuel l
            ((dot :: r.tokens) ++ rest) := ih l (by simp) (by omega) (by simp [hd]) hl.isOf
        exact hleft.step (dotName?_finds hT hd hright (by omega) (hr.mono (by simp))) (by simp)
          (by simp) hlen

theorem name?_finds (hT : FindsTypes type fuel) (h : FitsAs NodeKind.isName t)
    (hlen : t.tokens.length ≤ fuel) :
    Finds [.lessThan, .colonColon, .dot] (name? type fuel) t := fun _ hr =>
  (name?_reaches hT h hlen (hr.mono (by simp))).stop (dotName?_eq_none (hr.mono (by simp)))

/-- A name begins with an identifier. -/
theorem tokens_name (h : FitsAs NodeKind.isName t) :
    ∃ i ts, t.tokens = i :: ts ∧ i.kind = .identifier := by
  obtain ⟨hfits, hof⟩ := h
  induction hfits with
  | token t => exact absurd hof (isOf_token _ _)
  | @node k fs cs ha hf hc ih =>
      have hfits : (Tree.node k cs).Fits := .node ha hf hc
      cases k <;> try cases hof
      case node.identifierName =>
        obtain ⟨i, rfl, hi⟩ := children_of_identifierName hfits
        exact ⟨i, [], by simp, hi⟩
      case node.genericName =>
        obtain ⟨i, as, rfl, hi, -⟩ := children_of_genericName hfits
        exact ⟨i, _, by simp; rfl, hi⟩
      case node.qualifiedName =>
        obtain ⟨l, dot, r, rfl, hl, -, -⟩ := children_of_qualifiedName hfits
        obtain ⟨i, ts, hts, hi⟩ := ih l (by simp) hl.isOf
        exact ⟨i, _, by simp [hts]; rfl, hi⟩
      case node.aliasQualifiedName =>
        obtain ⟨i, colons, r, rfl, hi, -, -⟩ := children_of_aliasQualifiedName hfits
        exact ⟨i, _, by simp; rfl, hi⟩

end Names

/-! ## Types -/

section Types

variable {type : Reader} {fuel : Nat} {t : Tree}

theorem builtinType?_finds {cs : List Tree} (h : (Tree.node .predefinedType cs).Fits) :
    Finds [] builtinType? (.node .predefinedType cs) := by
  obtain ⟨w, rfl, hk, hw⟩ := children_of_predefinedType h
  intro rest _
  simp [builtinType?, keyword?_cons hk hw]

theorem builtinType?_eq_none {ts : List Token} (h : Stops [.keyword] ts) :
    builtinType? ts = none := by
  cases ts with
  | nil => rfl
  | cons t ts =>
      have hk : keyword? Lexical.builtinTypes (t :: ts) = none :=
        keyword?_eq_none fun hk => absurd hk (by simpa using h)
      rw [builtinType?, hk]

theorem tupleElement?_finds (hT : FindsTypes type fuel) (h : FitsAs (· == .tupleElement) t)
    (hlen : t.tokens.length < fuel) :
    Finds (.identifier :: typeStops) (tupleElement? type) t := by
  obtain ⟨k, cs, rfl, hk⟩ := h.eq_node
  obtain rfl : k = .tupleElement := by simpa using hk
  intro rest hr
  obtain ⟨u, hu, rfl | ⟨i, rfl, hi⟩⟩ := children_of_tupleElement h.fits
  · have hfind := hT u hu (by simpa using hlen) (hr.mono (by simp))
    have hident := take?_eq_none (k := .identifier) (hr.mono (by simp))
    simp [tupleElement?, hfind, hident]
  · have hfind : type (u.tokens ++ i :: rest) = some (u, i :: rest) :=
      hT u hu (by simp at hlen; omega) (by simp [hi, typeStops])
    simp [tupleElement?, hfind, take?_cons hi]

theorem tupleType?_finds (hT : FindsTypes type fuel) {cs : List Tree}
    (h : (Tree.node .tupleType cs).Fits) (hlen : (tokensAll cs).length ≤ fuel) :
    Finds [] (tupleType? type fuel) (.node .tupleType cs) := by
  obtain ⟨opening, closing, t, ts, rfl, ho, hc, ht, hts, hne⟩ := children_of_tupleType h
  intro rest _
  have hlist : ListOf (· == .tupleElement) (t :: ts) := .cons ht hts
  have hpos : 0 < ts.length := List.length_pos_iff.mpr hne
  have hcount := length_le_tokensAll (listOf_fits hlist)
  rw [tokensAll_enclosed, List.length_cons, List.length_append, List.length_singleton] at hlen
  have hitems : items? (tupleElement? type) fuel (tokensAll (t :: ts) ++ closing :: rest) =
      some (t :: ts, closing :: rest) := by
    refine items?_finds (by decide) hlist
      (fun u hu hfit => tupleElement?_finds hT hfit ?_) (by omega) ?_
    · have := length_tokens_le hu
      omega
    · simp [hc, typeStops]
  have htwo : ¬ (t :: ts).length < 2 := by
    rw [List.length_cons]
    omega
  rw [tokens_node, tokensAll_enclosed]
  simp only [List.cons_append, List.append_assoc, List.nil_append, tupleType?, take?_cons ho,
    hitems, if_neg htwo, take?_cons hc]

theorem tupleType?_eq_none {ts : List Token} (h : Stops [.openParen] ts) :
    tupleType? type fuel ts = none := by
  simp [tupleType?, take?_eq_none h]

theorem commas_append {cs rest : List Token} (hc : ∀ c ∈ cs, c.kind = .comma)
    (hr : Stops [.comma] rest) : commas (cs ++ rest) = (cs.map .token, rest) := by
  induction cs with
  | nil =>
      cases rest with
      | nil => rfl
      | cons t rest =>
          have ht : t.kind ≠ .comma := by simpa using hr
          simp [commas, ht]
  | cons c cs ih =>
      simp [commas, hc c (by simp), ih fun d hd => hc d (by simp [hd])]

theorem tokensAll_map_token (ts : List Token) : tokensAll (ts.map .token) = ts := by
  induction ts with
  | nil => rfl
  | cons t ts ih => simp [ih]

theorem rankSpecifier?_finds {cs : List Tree} (h : (Tree.node .rankSpecifier cs).Fits) :
    Finds [] rankSpecifier? (.node .rankSpecifier cs) := by
  obtain ⟨opening, closing, cs, rfl, ho, hc, hcs⟩ := children_of_rankSpecifier h
  intro rest _
  have hcommas : commas (cs ++ closing :: rest) = (cs.map .token, closing :: rest) :=
    commas_append hcs (by simp [hc])
  simp [rankSpecifier?, take?_cons ho, take?_cons hc, hcommas, tokensAll_map_token]

theorem rankSpecifier?_eq_none {ts : List Token} (h : Stops [.openBracket] ts) :
    rankSpecifier? ts = none := by
  simp [rankSpecifier?, take?_eq_none h]

theorem typeMark?_eq_none {left : Tree} {ts : List Token}
    (h : Stops [.question, .asterisk, .openBracket] ts) : typeMark? left ts = none := by
  have hquestion := take?_eq_none (k := .question) (h.mono (by simp))
  have hasterisk := take?_eq_none (k := .asterisk) (h.mono (by simp))
  have hrank := rankSpecifier?_eq_none (h.mono (by simp))
  simp [typeMark?, hquestion, hasterisk, hrank]

theorem tokens_rankSpecifier {cs : List Tree} (h : (Tree.node .rankSpecifier cs).Fits) :
    ∃ opening ts, tokensAll cs = opening :: ts ∧ opening.kind = .openBracket := by
  obtain ⟨opening, closing, commas, rfl, ho, -⟩ := children_of_rankSpecifier h
  exact ⟨opening, _, tokensAll_enclosed _ _ _, ho⟩

theorem typeMark?_rankSpecifier {left : Tree} {cs : List Tree}
    (h : (Tree.node .rankSpecifier cs).Fits) (rest : List Token) :
    typeMark? left (tokensAll cs ++ rest) =
      some (.node .arrayType [left, .node .rankSpecifier cs], rest) := by
  have hrank := rankSpecifier?_finds h (show Stops [] rest by simp [Stops])
  obtain ⟨opening, ts, hts, ho⟩ := tokens_rankSpecifier h
  have hquestion : take? .question (tokensAll cs ++ rest) = none :=
    take?_eq_none (by simp [hts, ho])
  have hasterisk : take? .asterisk (tokensAll cs ++ rest) = none :=
    take?_eq_none (by simp [hts, ho])
  rw [tokens_node] at hrank
  rw [typeMark?, hquestion, hasterisk, hrank]

/-- The kinds of types that no mark ends. -/
def isTypeStart (k : NodeKind) : Bool := k.isName || k == .predefinedType || k == .tupleType

theorem eq_of_isTypeStart {k : NodeKind} (h : isTypeStart k = true) :
    k.isName = true ∨ k = .predefinedType ∨ k = .tupleType := by
  simpa [isTypeStart, or_assoc] using h

theorem eq_of_isType {k : NodeKind} (h : k.isType = true) :
    isTypeStart k = true ∨ k = .arrayType ∨ k = .nullableType ∨ k = .pointerType := by
  cases k <;> simp_all [isTypeStart, NodeKind.isName, NodeKind.isType]

theorem typeStart?_finds (hT : FindsTypes type fuel) (h : FitsAs isTypeStart t)
    (hlen : t.tokens.length ≤ fuel) :
    Finds [.lessThan, .colonColon, .dot] (typeStart? type fuel) t := by
  intro rest hr
  obtain ⟨k, cs, rfl, hk⟩ := h.eq_node
  rcases eq_of_isTypeStart hk with hk | rfl | rfl
  · have hfit : FitsAs NodeKind.isName (.node k cs) := ⟨h.fits, hk⟩
    obtain ⟨i, ts, ht, hi⟩ := tokens_name hfit
    have hbuiltin : builtinType? (tokens (.node k cs) ++ rest) = none :=
      builtinType?_eq_none (by simp [ht, hi])
    have htuple : tupleType? type fuel (tokens (.node k cs) ++ rest) = none :=
      tupleType?_eq_none (by simp [ht, hi])
    rw [typeStart?, hbuiltin, htuple, Option.none_or, Option.none_or]
    exact name?_finds hT hfit hlen hr
  · rw [typeStart?, builtinType?_finds h.fits (by simp [Stops]), Option.some_or, Option.some_or]
  · obtain ⟨opening, closing, t, ts, rfl, ho, -⟩ := children_of_tupleType h.fits
    have htuple := tupleType?_finds hT h.fits (by simpa using hlen) (hr.mono (by simp))
    rw [typeStart?, htuple, builtinType?_eq_none (by simp [ho]), Option.none_or, Option.some_or]

end Types

theorem type?_reaches {fuel : Nat} (hT : FindsTypes (type? fuel) fuel) {t : Tree}
    (h : FitsAs NodeKind.isType t) (hlen : t.tokens.length ≤ fuel) {rest : List Token}
    (hr : Stops [.lessThan, .colonColon, .dot] rest) :
    Reaches (type? (fuel + 1)) typeMark? fuel t rest := by
  obtain ⟨hfits, hof⟩ := h
  induction hfits generalizing rest with
  | token t => exact absurd hof (isOf_token _ _)
  | @node k fs cs ha hf hc ih =>
      have hfits : (Tree.node k cs).Fits := .node ha hf hc
      rcases eq_of_isType hof with hs | rfl | rfl | rfl
      · have hstart := typeStart?_finds hT ⟨hfits, hs⟩ hlen hr
        exact ⟨fuel, by omega, by simp only [type?, hstart]⟩
      · obtain ⟨l, rs, rfl, hl, hrank⟩ := children_of_arrayType hfits
        obtain ⟨opening, ts, hts, ho⟩ := tokens_rankSpecifier hrank
        have hleft : Reaches (type? (fuel + 1)) typeMark? fuel l (tokensAll rs ++ rest) :=
          ih l (by simp) (by simp at hlen; omega) (by simp [hts, ho]) hl.isOf
        exact hleft.step (typeMark?_rankSpecifier hrank rest) (by simp) (by simp [hts]) hlen
      · obtain ⟨l, mark, rfl, hl, hm⟩ := children_of_nullableType hfits
        have hleft : Reaches (type? (fuel + 1)) typeMark? fuel l ([mark] ++ rest) :=
          ih l (by simp) (by simp at hlen; omega) (by simp [hm]) hl.isOf
        exact hleft.step (by simp [typeMark?, take?_cons hm]) (by simp) (by simp) hlen
      · obtain ⟨l, mark, rfl, hl, hm⟩ := children_of_pointerType hfits
        have hleft : Reaches (type? (fuel + 1)) typeMark? fuel l ([mark] ++ rest) :=
          ih l (by simp) (by simp at hlen; omega) (by simp [hm]) hl.isOf
        exact hleft.step (by simp [typeMark?, take?, hm]) (by simp) (by simp) hlen

/-- The reader of types finds every fitting type with fewer tokens than there is fuel. -/
theorem type?_finds (fuel : Nat) : FindsTypes (type? fuel) fuel := by
  induction fuel with
  | zero => exact fun t _ hlen => absurd hlen (Nat.not_lt_zero _)
  | succ fuel ih =>
      intro t ht hlen rest hr
      have hreach := type?_reaches ih ht (Nat.le_of_lt_succ hlen)
        (hr.mono (by simp [typeStops]))
      exact hreach.stop (typeMark?_eq_none (hr.mono (by simp [typeStops])))

end CallFill.Grammar
