import CallFill.Proofs.Acceptance
import CallFill.Proofs.Dividers
import CallFill.Proofs.TypeNames

/-!
# The grammar of type names

A name is read in front of the parenthesis that closes its `typeof` expression.  When no comment
stands in it, it is cut into the same tokens there as alone, so it has a tree exactly when it is
derived as a type.
-/

namespace CallFill

namespace Lexical

open Grammar

/-! ## A parenthesis at the end -/

/-- Where there is no comment, a parenthesis at the end is one more token. -/
theorem Cut.concat {cs : List Char} {ws : List String} (h : Cut cs ws)
    (hnote : ¬ ['/', '/'] <:+: cs) : Cut (cs ++ [')']) (ws ++ [")"]) := by
  induction h with
  | done => exact .token (k := .closeParen) (w := [')']) (.mark rfl) .done
  | gap hc h ih => exact .gap hc (ih fun hi => hnote (List.infix_cons hi))
  | comment h ih => exact absurd ⟨[], _, rfl⟩ hnote
  | token hw h ih =>
      rw [List.append_assoc]
      exact .token (hw.append_cons divides_closeParen [])
        (ih fun hi => hnote (hi.trans (List.suffix_append _ _).isInfix))

/-- The opening of a `typeof` expression is two tokens more. -/
theorem Cut.typeOf {cs : List Char} {ws : List String} (h : Cut cs ws) :
    Cut ("typeof".toList ++ '(' :: cs) ("typeof" :: "(" :: ws) := by
  have hopen : Cut ('(' :: cs) ("(" :: ws) := .token (k := .openParen) (w := ['(']) (.mark rfl) h
  have hword := Cut.token (lexeme_typeOf cs) hopen
  rwa [String.ofList_toList] at hword

/-- A run that is settled before a parenthesis is what its source is cut into. -/
theorem tokens_of_settled {ts : List Token} (h : Settled ts [')']) :
    tokens (Token.wholeAll ts).toList = (ts, []) :=
  tokens_eq.mpr ⟨by simp, h.alike (.stop (by decide) []), rfl⟩

end Lexical

namespace Grammar

open CallFill.Tree CallFill.Lexical

variable {name : String}

theorem derives_of_namedType? {type : Tree} (h : namedType? name = some type)
    (hname : Text.mentions name "//" = false) :
    ∃ ws, Cut (Text.trim name).toList ws ∧ Derives .type ws := by
  obtain ⟨htype, -⟩ := namedType?_eq_some h
  obtain ⟨hwhole, hsettled, -⟩ := namedType?_whole h hname
  have htokens := tokens_of_settled hsettled
  refine ⟨type.tokens.map Token.text, ?_,
    (isDerivation_of_fits htype.fits (spelled_of_tokens htokens)).type htype.isOf⟩
  rw [Text.trim, String.toList_ofList, ← hwhole]
  exact cut_iff_tokens.mpr ⟨_, [], htokens, rfl, rfl⟩

/-- What the parentheses of `typeof` hold as a type has a tree. -/
theorem namedType?_of_derives {ws : List String}
    (hcut : Cut ((Text.trim name).toList ++ [')']) (ws ++ [")"])) (hd : Derives .type ws) :
    ∃ type, namedType? name = some type := by
  have hwhole : Cut ("typeof(" ++ Text.trim name ++ ")").toList
      ("typeof" :: "(" :: (ws ++ [")"])) := by
    simpa using hcut.typeOf
  obtain ⟨ts, trivia, ht, hl, hws⟩ := cut_iff_tokens.mp hwhole
  obtain ⟨e, he, rfl⟩ := holds_typeOf (yieldsTexts hd) (spelled_of_tokens ht) hws.symm
  obtain ⟨word, opening, closing, type, -, -, htokens, hkind, hoperand⟩ :=
    exists_typeOperand he (String.ofList trivia)
  have hread := expression_of_tokens (he.mono fun h => by rw [eq_of_beq h]; rfl)
    (all_isBlank_of_tokens (htokens ▸ ht)) ht hl
  refine ⟨type, ?_⟩
  rw [namedType?, hread]
  simp only [hkind, if_true, hoperand]

/-- A name without comments has a tree exactly when it is derived as a type.  The tree has the name
for its source: nothing of it gets out of the parentheses. -/
theorem typeName_iff_derives (hname : Text.mentions name "//" = false) :
    ((∃ type, namedType? name = some type) ↔
      ∃ ws, Cut (Text.trim name).toList ws ∧ Derives .type ws) ∧
    ∀ type, namedType? name = some type → type.whole = Text.trim name := by
  refine ⟨⟨?_, ?_⟩, ?_⟩
  · rintro ⟨type, h⟩
    exact derives_of_namedType? h hname
  · rintro ⟨ws, hcut, hd⟩
    refine namedType?_of_derives (hcut.concat ?_) hd
    rw [Text.trim, String.toList_ofList]
    intro hi
    have hmention : Text.mentions name "//" = true :=
      Text.mentions_iff.mpr (hi.trans (Text.trimBlanks_isInfix _))
    exact Bool.eq_false_iff.mp hname hmention
  · intro type h
    obtain ⟨hwhole, -⟩ := namedType?_whole h hname
    rw [← String.toList_inj, hwhole, Text.trim, String.toList_ofList]

theorem typeName_iff_derives_nested :
    Text.mentions " Dictionary<string, (int, a::b c)>[,]? " "//" = false ∧
      (∃ ws, Cut (Text.trim " Dictionary<string, (int, a::b c)>[,]? ").toList ws ∧
        Derives .type ws) ∧
      ∃ type, namedType? " Dictionary<string, (int, a::b c)>[,]? " = some type ∧
        type.whole = "Dictionary<string, (int, a::b c)>[,]?" := by
  have hname : Text.mentions " Dictionary<string, (int, a::b c)>[,]? " "//" = false := by
    decide +kernel
  have hsome : (namedType? " Dictionary<string, (int, a::b c)>[,]? ").isSome = true := by
    decide +kernel
  obtain ⟨type, htype⟩ := Option.isSome_iff_exists.mp hsome
  obtain ⟨hiff, hwhole⟩ := typeName_iff_derives hname
  exact ⟨hname, hiff.mp ⟨type, htype⟩, type, htype, hwhole type htype⟩

end Grammar

end CallFill
