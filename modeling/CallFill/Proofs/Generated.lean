import CallFill.Offer.Rewrite
import CallFill.Proofs.Derivation
import CallFill.Proofs.TypeNames

/-!
# Generated source

The argument list that a rewrite generates: its text, that it fits, and that its tokens are cut
off as they are, whatever stands behind its line break.
-/

namespace CallFill

/-! ## The text of generated source -/

namespace Tree

theorem whole_separated (ts : List Tree) :
    Token.wholeAll (tokensAll (separated ts)) = ", ".intercalate (ts.map whole) := by
  induction ts with
  | nil => simp [separated]
  | cons t ts ih =>
      cases ts with
      | nil => simp [separated, whole]
      | cons u us =>
          have hsep : Token.wholeAll separator.tokens = ", " := by decide
          have hus : ", ".intercalate ((t :: u :: us).map whole) =
              t.whole ++ ", " ++ ", ".intercalate ((u :: us).map whole) := by
            simp [String.intercalate_cons_cons]
          rw [hus, ← ih, String.append_assoc, separated, tokensAll_cons, tokensAll_cons,
            Token.wholeAll_append, Token.wholeAll_append, hsep]
          · rfl
          · simp

theorem whole_argumentList (ts : List Tree) :
    (argumentList ts).whole = "(" ++ ", ".intercalate (ts.map whole) ++ ")" := by
  simp [argumentList, whole_node, leaf, whole_separated, String.append_assoc]

theorem tokens_argumentList (ts : List Tree) : (argumentList ts).tokens =
    .bare .openParen "(" :: tokensAll (separated ts) ++ [.bare .closeParen ")"] := by
  simp [argumentList, leaf]

end Tree

namespace Settings

variable (s : Settings)

open CallFill.Tree

theorem whole_wildcard (t : Tree) : (s.wildcard t).whole =
    s.matcherType ++ "." ++ s.matcherMethod ++ "<" ++ t.whole ++ ">()" := by
  simp [wildcard, invocation, memberAccess, identifierName, genericName, typeArguments,
    argumentList, leaf, separated, whole, String.append_assoc]

/-- The text of the generated list. -/
theorem whole_wildcards (types : List String) : (s.wildcards types).whole =
    "(" ++ ", ".intercalate ((types.filterMap Grammar.namedType?).map fun t =>
      s.matcherType ++ "." ++ s.matcherMethod ++ "<" ++ t.whole ++ ">()") ++ ")" := by
  have hargument (t : Tree) : (argument t).whole = t.whole := by simp [argument, whole]
  simp only [wildcards, whole_argumentList, List.map_map, Function.comp_def, hargument,
    whole_wildcard]

/-- The generated list with a line break after its closing parenthesis. -/
def brokenList (types : List String) : Tree :=
  (s.wildcards types).appendTrailing s.lineEnding.lineBreak

theorem tokens_wildcards (types : List String) : (s.wildcards types).tokens =
    .bare .openParen "(" :: tokensAll (separated ((types.filterMap Grammar.namedType?).map
      fun t => .argument (s.wildcard t))) ++ [.bare .closeParen ")"] :=
  tokens_argumentList _

theorem brokenList_eq (types : List String) : s.brokenList types = .node .argumentList
    (leaf .openParen "(" :: separated ((types.filterMap Grammar.namedType?).map
      fun t => .argument (s.wildcard t)) ++
        [.token ⟨.closeParen, "", ")", s.lineEnding.lineBreak⟩]) := by
  rw [brokenList, wildcards, argumentList, appendTrailing_concat _ _ _ (by simp [leaf])]
  rfl

theorem tokens_brokenList (types : List String) : (s.brokenList types).tokens =
    .bare .openParen "(" :: tokensAll (separated ((types.filterMap Grammar.namedType?).map
      fun t => .argument (s.wildcard t))) ++ [⟨.closeParen, "", ")", s.lineEnding.lineBreak⟩] := by
  simp [brokenList_eq, leaf]

theorem whole_brokenList (types : List String) : (s.brokenList types).whole =
    (s.wildcards types).whole ++ s.lineEnding.lineBreak :=
  whole_appendTrailing _ (by simp [tokens_wildcards])

end Settings

/-! ## Generated trees fit -/

namespace Tree

theorem mem_separated {ts : List Tree} {c : Tree} (h : c ∈ separated ts) :
    c ∈ ts ∨ c = separator := by
  induction ts with
  | nil => cases h
  | cons t ts ih =>
      cases ts with
      | nil => exact .inl h
      | cons u us =>
          rcases List.mem_cons.mp h with rfl | h
          · exact .inl List.mem_cons_self
          · rcases List.mem_cons.mp h with rfl | h
            · exact .inr rfl
            · exact (ih h).imp_left (List.mem_cons_of_mem t)

theorem map_face_separated {ts : List Tree} {ks : List NodeKind}
    (h : ts.map face = ks.map .node) : (separated ts).map face = Face.listed ks := by
  induction ts generalizing ks with
  | nil =>
      obtain rfl : ks = [] := by simpa using h.symm
      rfl
  | cons t ts ih =>
      cases ks with
      | nil => cases h
      | cons k ks =>
          obtain ⟨ht, hts⟩ : t.face = .node k ∧ ts.map face = ks.map .node := by simpa using h
          have hrest := ih hts
          cases ts with
          | nil =>
              obtain rfl : ks = [] := by simpa using hts.symm
              simp [separated, Face.listed, ht]
          | cons u us =>
              cases ks with
              | nil => cases hts
              | cons j js =>
                  have hcomma : separator.face = .token .comma := rfl
                  rw [separated, List.map_cons, List.map_cons, hrest, ht, hcomma]
                  · rfl
                  · simp

theorem fits_separated {ts : List Tree} (h : ∀ t ∈ ts, t.Fits) :
    ∀ c ∈ separated ts, c.Fits := by
  intro c hc
  rcases mem_separated hc with hc | rfl
  · exact h c hc
  · exact .token _

/-- A list in marks of its own keeps its rule if its items are of the class that the rule names. -/
theorem fits_enclosed {p : NodeKind → Bool} {k : NodeKind} {opening closing : Token}
    {ts : List Tree} (hts : ∀ t ∈ ts, FitsAs p t)
    (h : ∀ ks : List NodeKind, ks.length = ts.length → (∀ j ∈ ks, p j = true) →
      Arranged k (opening.face :: Face.listed ks ++ [closing.face])) :
    (Tree.node k (.token opening :: separated ts ++ [.token closing])).Fits := by
  obtain ⟨ks, hks, hmap⟩ := exists_kinds fun t ht => (hts t ht).isOf
  have hlen : ks.length = ts.length := by simpa using (congrArg List.length hmap).symm
  refine .node (h ks hlen hks) (by simp [map_face_separated hmap]) ?_
  intro c hc
  rcases List.mem_append.mp hc with hc | hc
  · rcases List.mem_cons.mp hc with rfl | hc
    · exact .token _
    · exact fits_separated (fun t ht => (hts t ht).fits) c hc
  · rw [List.mem_singleton.mp hc]
    exact .token _

theorem fits_typeArguments {ts : List Tree} (hne : ts ≠ [])
    (h : ∀ t ∈ ts, FitsAs NodeKind.isType t) : (typeArguments ts).Fits := by
  refine fits_enclosed h fun ks hlen hks => .typeArgumentList ?_ hks
  rintro rfl
  exact hne (List.eq_nil_of_length_eq_zero hlen.symm)

theorem fits_argumentList {ts : List Tree} (h : ∀ t ∈ ts, FitsAs (· == .argument) t) :
    (argumentList ts).Fits :=
  fits_enclosed h fun _ _ hks => .argumentList fun k hk => by simpa using hks k hk

theorem fits_genericName (name : String) {ts : List Tree} (hne : ts ≠ [])
    (h : ∀ t ∈ ts, FitsAs NodeKind.isType t) : (genericName name (typeArguments ts)).Fits := by
  refine .node .genericName rfl ?_
  simpa using ⟨.token _, fits_typeArguments hne h⟩

theorem fits_memberAccess {e n : Tree} (he : FitsAs NodeKind.isExpr e)
    (hn : FitsAs NodeKind.isSimpleName n) : (memberAccess e n).Fits := by
  obtain ⟨j, hj, he'⟩ := he.isOf.face_eq
  obtain ⟨k, hk, hn'⟩ := hn.isOf.face_eq
  refine .node (.memberAccess he' hn') (by simp [hj, hk]; rfl) ?_
  simpa using ⟨he.fits, .token _, hn.fits⟩

theorem fits_argument {e : Tree} (he : FitsAs NodeKind.isExpr e) : (argument e).Fits := by
  obtain ⟨k, hk, he'⟩ := he.isOf.face_eq
  exact .node (.argument he') (by simp [hk]) (by simpa using he.fits)

theorem fits_invocation {callee list : Tree} (hc : FitsAs NodeKind.isExpr callee)
    (hl : FitsAs (· == .argumentList) list) : (invocation callee list).Fits := by
  obtain ⟨k, hk, hc'⟩ := hc.isOf.face_eq
  obtain ⟨j, hj, hl'⟩ := hl.isOf.face_eq
  obtain rfl : j = .argumentList := by simpa using hl'
  refine .node (.invocation hc') (by simp [hk, hj]) ?_
  simpa using ⟨hc.fits, hl.fits⟩

end Tree

namespace Settings

variable (s : Settings)

open CallFill.Tree

theorem wildcard_fits {t : Tree} (h : FitsAs NodeKind.isType t) :
    FitsAs NodeKind.isExpr (s.wildcard t) := by
  have hname : FitsAs NodeKind.isSimpleName
      (.genericName s.matcherMethod (typeArguments [t])) :=
    ⟨fits_genericName _ (by simp) (by simpa using h), rfl⟩
  have hcallee : FitsAs NodeKind.isExpr (memberAccess (.identifierName s.matcherType)
      (.genericName s.matcherMethod (typeArguments [t]))) :=
    ⟨fits_memberAccess ⟨Grammar.identifierName_fits rfl, rfl⟩ hname, rfl⟩
  exact ⟨fits_invocation hcallee ⟨fits_argumentList (by simp), rfl⟩, rfl⟩

theorem wildcards_fits (types : List String) : (s.wildcards types).Fits := by
  refine fits_argumentList fun a ha => ?_
  obtain ⟨t, ht, rfl⟩ := List.mem_map.mp ha
  obtain ⟨name, -, hname⟩ := List.mem_filterMap.mp ht
  exact ⟨fits_argument (s.wildcard_fits (Grammar.namedType?_eq_some hname).1), rfl⟩

theorem brokenList_fits (types : List String) : (s.brokenList types).Fits :=
  (s.wildcards_fits types).appendTrailing _

end Settings

/-! ## Generated tokens are settled -/

namespace Lexical

variable {x : List Char}

theorem isIdentifier_iff {w : String} : Grammar.IsIdentifier w ↔
    word? w.toList = some (w.toList, []) ∧ isReserved w = false := by
  have hword : word? w.toList = some (w.toList, []) ↔ IsWord w.toList := by
    rw [word?_eq_some, List.append_nil]
    exact ⟨fun h => h.2.holds, fun h => ⟨rfl, longest_nil h⟩⟩
  simp [Grammar.IsIdentifier, hword, isReserved]

/-- An identifier is cut off before a character that continues no word. -/
theorem lexeme_identifier {w : String} (hw : Grammar.IsIdentifier w)
    (hx : ∀ c ∈ x.head?, ¬ continuesWord c = true) : Lexeme .identifier w.toList x := by
  have hkind : wordKind (String.ofList w.toList) = .identifier := by
    rw [String.ofList_toList, wordKind_eq_identifier]
    exact (isIdentifier_iff.mp hw).2
  exact hkind ▸ .word (longest_isWord.mpr ⟨hw.1, hx⟩)

theorem trailing_blank (hx : trailing x = ([], x)) : trailing (' ' :: x) = ([' '], x) := by
  have hblank : isIndent ' ' = true := rfl
  simp only [trailing, List.takeWhile_cons, List.dropWhile_cons, hblank, if_true] at hx ⊢
  rw [Prod.mk.injEq] at hx ⊢
  exact ⟨congrArg _ hx.1, hx.2⟩

theorem trailing_mark {k : TokenKind} {w : String} (hw : mark? k = some w) (x : List Char) :
    trailing (w.toList ++ x) = ([], w.toList ++ x) :=
  trailing_lexeme (k := k) (.mark (by rwa [String.ofList_toList]))

theorem not_continuesWord_of_mark {k : TokenKind} {w : String} (hw : mark? k = some w)
    (x : List Char) : ∀ c ∈ (w.toList ++ x).head?, ¬ continuesWord c = true := by
  cases k <;> cases hw <;> (rintro c ⟨⟩; decide +kernel)

/-- A settled run with no trivia in front of it. -/
structure Stands (ts : List Token) (x : List Char) : Prop where
  settled : Settled ts x
  start : trailing ((Token.wholeAll ts).toList ++ x) = ([], (Token.wholeAll ts).toList ++ x)

namespace Stands

variable {ts us : List Token} {k : TokenKind} {m w : String}

theorem nil (hx : trailing x = ([], x)) : Stands [] x := ⟨trivial, by simpa using hx⟩

theorem mark (hm : mark? k = some m) (h : Stands ts x) : Stands (.bare k m :: ts) x := by
  refine ⟨⟨settles_mark hm h.start, h.settled⟩, ?_⟩
  simpa using trailing_mark hm ((Token.wholeAll ts).toList ++ x)

/-- An identifier stands before a mark. -/
theorem identifier (hw : Grammar.IsIdentifier w) (hm : mark? k = some m)
    (h : Stands (.bare k m :: ts) x) : Stands (.bare .identifier w :: .bare k m :: ts) x := by
  have hlex : Lexeme .identifier w.toList
      (m.toList ++ ((Token.wholeAll ts).toList ++ x)) :=
    lexeme_identifier hw (not_continuesWord_of_mark hm _)
  have hstart := h.start
  refine ⟨⟨settles_of_lexeme ?_ ?_, h.settled⟩, ?_⟩
  · simpa using hlex
  · simpa using hstart
  · simpa using trailing_lexeme hlex

theorem append (h : Stands ts ((Token.wholeAll us).toList ++ x)) (hus : Settled us x) :
    Stands (ts ++ us) x :=
  ⟨settled_append.mpr ⟨h.settled, hus⟩, by simpa using h.start⟩

/-- Trees stand with separators between them if each stands before anything but trivia. -/
theorem separated {ts : List Tree}
    (h : ∀ t ∈ ts, ∀ x, trailing x = ([], x) → Stands t.tokens x)
    (hx : trailing x = ([], x)) : Stands (Tree.tokensAll (Tree.separated ts)) x := by
  induction ts with
  | nil => simpa [Tree.separated] using nil hx
  | cons t ts ih =>
      cases ts with
      | nil => simpa [Tree.separated] using h t List.mem_cons_self x hx
      | cons u us =>
          let tail := Tree.tokensAll (Tree.separated (u :: us))
          have htail : Stands tail x := ih fun v hv => h v (List.mem_cons_of_mem t hv)
          have hcomma : Settles ⟨.comma, "", ",", " "⟩ ((Token.wholeAll tail).toList ++ x) :=
            settles_of_lexeme (.mark rfl) (trailing_blank htail.start)
          have ht : Stands t.tokens (',' :: ' ' :: ((Token.wholeAll tail).toList ++ x)) :=
            h t List.mem_cons_self _ (trailing_mark (k := .comma) rfl _)
          have htokens : Tree.tokensAll (Tree.separated (t :: u :: us)) =
              t.tokens ++ ⟨.comma, "", ",", " "⟩ :: tail := by
            simp [Tree.separated, Tree.separator, tail]
          rw [htokens]
          refine append ?_ ⟨hcomma, htail.settled⟩
          simpa [Token.whole] using ht

end Stands

end Lexical

namespace Settings

variable {s : Settings}

open Lexical

/-- What the parts of a wildcard must be for its text to be read as it was built. -/
structure NamesWildcard (s : Settings) : Prop where
  matcherType : Grammar.IsIdentifier s.matcherType
  matcherMethod : Grammar.IsIdentifier s.matcherMethod

theorem wildcard_stands (hs : s.NamesWildcard) {name : String} {type : Tree}
    (h : Grammar.namedType? name = some type) (hname : Text.mentions name "//" = false)
    {x : List Char} (hx : trailing x = ([], x)) :
    Stands (Tree.argument (s.wildcard type)).tokens x := by
  have hclose : Stands [.bare .greaterThan ">", .bare .openParen "(", .bare .closeParen ")"] x :=
    .mark rfl (.mark rfl (.mark rfl (.nil hx)))
  obtain ⟨hsettled, hstart⟩ := Grammar.namedType?_settled h hname ('(' :: ')' :: x)
  have htype : Stands (type.tokens ++
      [.bare .greaterThan ">", .bare .openParen "(", .bare .closeParen ")"]) x :=
    .append ⟨by simpa using hsettled, by simpa [Tree.whole] using hstart⟩ hclose.settled
  have hmethod := Stands.identifier hs.matcherMethod (k := .lessThan) rfl (.mark rfl htype)
  have htokens : (Tree.argument (s.wildcard type)).tokens =
      .bare .identifier s.matcherType :: .bare .dot "." :: .bare .identifier s.matcherMethod ::
        .bare .lessThan "<" :: (type.tokens ++
          [.bare .greaterThan ">", .bare .openParen "(", .bare .closeParen ")"]) := by
    simp [Tree.argument, wildcard, Tree.invocation, Tree.memberAccess, Tree.identifierName,
      Tree.genericName, Tree.typeArguments, Tree.argumentList, Tree.leaf, Tree.separated]
  rw [htokens]
  exact .identifier hs.matcherType rfl (.mark rfl hmethod)

theorem trailing_lineEnding (e : LineEnding) (x : List Char) :
    trailing (e.lineBreak.toList ++ x) = (e.lineBreak.toList, x) := by
  cases e <;> rfl

/-- The generated list is cut off as it is, whatever follows its line break. -/
theorem brokenList_settled (hs : s.NamesWildcard) {types : List String}
    (htypes : ∀ name ∈ types, Text.mentions name "//" = false) (x : List Char) :
    Settled (s.brokenList types).tokens x := by
  let closing : Token := ⟨.closeParen, "", ")", s.lineEnding.lineBreak⟩
  have hclosing : Settles closing x :=
    settles_of_lexeme (.mark rfl) (trailing_lineEnding s.lineEnding x)
  have hparen : trailing ((Token.wholeAll [closing]).toList ++ x) =
      ([], (Token.wholeAll [closing]).toList ++ x) := by
    simpa [Token.whole, closing] using
      trailing_mark (k := .closeParen) rfl (s.lineEnding.lineBreak.toList ++ x)
  have hitems : Stands (Tree.tokensAll (Tree.separated ((types.filterMap Grammar.namedType?).map
      fun t => .argument (s.wildcard t)))) ((Token.wholeAll [closing]).toList ++ x) := by
    refine .separated (fun a ha y hy => ?_) hparen
    obtain ⟨t, ht, rfl⟩ := List.mem_map.mp ha
    obtain ⟨name, hname, hnamed⟩ := List.mem_filterMap.mp ht
    exact wildcard_stands hs hnamed (htypes name hname) hy
  have hlist := Stands.mark (k := .openParen) rfl (hitems.append ⟨hclosing, trivial⟩)
  rw [tokens_brokenList]
  exact hlist.settled

end Settings

end CallFill
