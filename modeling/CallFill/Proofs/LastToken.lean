import CallFill.Proofs.Spans
import CallFill.Tree.Labelled

/-!
# The last token

A tree with a token has a last one, at any depth and perhaps with nodes without tokens behind it.
To append trivia is to replace that token by the token with the trivia, so the source grows at its
end, every other token stays, and the tree keeps its shape.
-/

namespace CallFill

namespace Token

theorem appendTrailing_appendTrailing (t : Token) (a b : String) :
    (t.appendTrailing a).appendTrailing b = t.appendTrailing (a ++ b) := by
  simp [appendTrailing, String.append_assoc]

theorem upToLast_concat (ts : List Token) (t : Token) :
    upToLast (ts ++ [t]) = wholeAll ts ++ t.leading ++ t.text := by
  induction ts with
  | nil => simp [upToLast]
  | cons u us ih =>
      cases us with
      | nil => simp [upToLast, String.append_assoc]
      | cons v vs =>
          rw [List.cons_append, List.cons_append, upToLast_cons, ← List.cons_append, ih,
            wholeAll_cons u]
          simp only [String.append_assoc]

/-- The text of a run ends before the trivia after its last text. -/
theorem inner_appendTrailing (ts : List Token) (t : Token) (s : String) :
    inner (ts ++ [t.appendTrailing s]) = inner (ts ++ [t]) := by
  cases ts with
  | nil => rfl
  | cons u us =>
      obtain ⟨v, vs, htail⟩ : ∃ v vs, us ++ [t] = v :: vs :=
        List.exists_cons_of_ne_nil (by simp)
      obtain ⟨v', vs', htail'⟩ : ∃ v vs, us ++ [t.appendTrailing s] = v :: vs :=
        List.exists_cons_of_ne_nil (by simp)
      rw [List.cons_append, List.cons_append, htail, htail', inner_cons, inner_cons, ← htail,
        ← htail', upToLast_concat, upToLast_concat]
      rfl

end Token

/-! ## The place of the last token -/

namespace Place

open CallFill.Tree

mutual

/-- Below frames with no token to the right, the last token of a tree is the last of all. -/
theorem exists_last : (above : List Frame) → tokensRight above = [] → (t : Tree) →
    t.tokens ≠ [] →
    ∃ fs last, fillAll (.token last) fs = fillAll t above ∧ tokensRight fs = []
  | above, habove, .token t, _ => ⟨above, t, rfl, habove⟩
  | above, habove, .node k cs, h => exists_lastAmong above habove k [] cs (by simpa using h)

theorem exists_lastAmong : (above : List Frame) → tokensRight above = [] → (k : NodeKind) →
    (before cs : List Tree) → tokensAll cs ≠ [] →
    ∃ fs last, fillAll (.token last) fs = fillAll (.node k (before.reverse ++ cs)) above ∧
      tokensRight fs = []
  | _, _, _, _, [], h => absurd tokensAll_nil h
  | above, habove, k, before, c :: cs, h => by
    -- The search goes on to the right as long as there is a token.
    by_cases hcs : tokensAll cs = []
    · have hc : c.tokens ≠ [] := by simpa [hcs] using h
      exact exists_last (⟨k, before, cs⟩ :: above) (by simp [tokensRight, hcs, habove]) c hc
    · simpa using exists_lastAmong above habove k (c :: before) cs hcs

end

/-- Trivia that is appended to the whole tree goes to a place with no token to its right. -/
theorem appendTrailing_fillAll (s : String) {t : Tree} (ht : t.tokens ≠ []) {fs : List Frame}
    (h : tokensRight fs = []) :
    (fillAll t fs).appendTrailing s = fillAll (t.appendTrailing s) fs := by
  induction fs generalizing t with
  | nil => rfl
  | cons f fs ih =>
      obtain ⟨hafter, hright⟩ := List.append_eq_nil_iff.mp h
      rw [fillAll_cons, ih (Frame.tokens_fill_ne_nil ht) hright, Frame.fill,
        appendTrailing_append s f.kind _ ht hafter]
      rfl

end Place

/-! ## The shape of a tree -/

namespace Tree

/-- Two trees have the same paths, with the same kinds and numbers of children. -/
def SameShape (t u : Tree) : Prop :=
  ∀ is, (t.at? is).map (fun v => (v.kind, v.children.length)) =
    (u.at? is).map (fun v => (v.kind, v.children.length))

theorem sameShape_token {t u : Token} (h : t.kind = u.kind) :
    SameShape (.token t) (.token u) := by
  rintro (_ | ⟨i, is⟩)
  · simp [h]
  · simp [at?_cons]

theorem SameShape.fill {t u : Tree} (h : SameShape t u) (f : Frame) :
    SameShape (f.fill t) (f.fill u) := by
  rintro (_ | ⟨i, is⟩)
  · simp [Frame.fill]
  · by_cases hi : i = f.index
    · rw [hi, Frame.at?_fill_index, Frame.at?_fill_index]
      exact h is
    · rw [Frame.at?_fill_of_ne hi is t u]

theorem SameShape.fillAll {t u : Tree} (h : SameShape t u) (fs : List Frame) :
    SameShape (Place.fillAll t fs) (Place.fillAll u fs) := by
  induction fs generalizing t u with
  | nil => exact h
  | cons f fs ih => exact ih (h.fill f)

end Tree

/-! ## Labelled trees -/

namespace Labelled

open CallFill.Tree

mutual

theorem forget_appendTrailing? (s : String) : (t : Labelled) → (next : Nat) →
    ((t.appendTrailing? s).run next).1.map forget = t.forget.appendTrailing? s
  | .token t, next => rfl
  | .node l k cs, next => by
    rw [forget, Tree.appendTrailing?, ← forgetAll_appendTrailingAll? s cs next,
      appendTrailing?, StateT.run_bind]
    rcases (appendTrailingAll? s cs).run next with ⟨_ | ds, rest⟩
    · rfl
    · rfl

theorem forgetAll_appendTrailingAll? (s : String) : (cs : List Labelled) → (next : Nat) →
    ((appendTrailingAll? s cs).run next).1.map forgetAll =
      Tree.appendTrailingAll? s (forgetAll cs)
  | [], next => rfl
  | c :: cs, next => by
    rw [forgetAll, Tree.appendTrailingAll?, ← forgetAll_appendTrailingAll? s cs next,
      appendTrailingAll?, StateT.run_bind]
    rcases (appendTrailingAll? s cs).run next with ⟨_ | ds, rest⟩
    · -- Nothing in the tail took the trivia, so the head is asked, from the next label on.
      rw [← forget_appendTrailing? s c rest]
      change (((do
        match ← c.appendTrailing? s with
        | some c => return some (c :: cs)
        | none => return none) : StateM Nat _).run rest).1.map forgetAll = _
      rw [StateT.run_bind]
      rcases (appendTrailing? s c).run rest with ⟨_ | d, rest⟩
      · rfl
      · rfl
    · rfl

end

/-- Labels have no part in where the trivia goes. -/
theorem forget_appendTrailing (s : String) (t : Labelled) (next : Nat) :
    ((t.appendTrailing s).run next).1.forget = t.forget.appendTrailing s := by
  rw [Tree.appendTrailing, ← forget_appendTrailing? s t next, appendTrailing, StateT.run_bind]
  rcases (appendTrailing? s t).run next with ⟨_ | u, rest⟩
  · rfl
  · rfl

end Labelled

/-! ## Appending at the last token -/

namespace Tree

open Place

theorem appendTrailing_of_tokens_eq_nil (s : String) {t : Tree} (h : t.tokens = []) :
    t.appendTrailing s = t := by
  rw [appendTrailing]
  cases hu : t.appendTrailing? s with
  | none => rfl
  | some u =>
      obtain ⟨-, init, last, htokens, -⟩ := (tokens_appendTrailing? s t).1 u hu
      simp [h] at htokens

/-- To append trivia is to replace the last token, wherever it is. -/
theorem exists_appendTrailing_eq {t : Tree} (h : t.tokens ≠ []) :
    ∃ fs last, t = fillAll (.token last) fs ∧ tokensRight fs = [] ∧
      ∀ s, t.appendTrailing s = fillAll (.token (last.appendTrailing s)) fs := by
  obtain ⟨fs, last, rfl, hright⟩ := exists_last [] rfl t h
  exact ⟨fs, last, rfl, hright, fun s => appendTrailing_fillAll s (by simp) hright⟩

/-- Appended trivia changes a tree at its end only: the source grows there, and the text, the
shape and all tokens before the last one stay.  Two texts appended one after the other are one.
A tree without tokens stays as it is, and labels make no difference. -/
theorem appendTrailing_end (t : Tree) (a b : String) :
    (t.tokens ≠ [] →
      (t.appendTrailing a).whole = t.whole ++ a ∧
      (t.appendTrailing a).text = t.text ∧
      (t.appendTrailing a).width = t.width + a.utf8ByteSize ∧
      SameShape (t.appendTrailing a) t ∧
      (∃ init last, t.tokens = init ++ [last] ∧
        (t.appendTrailing a).tokens = init ++ [last.appendTrailing a]) ∧
      (t.appendTrailing a).appendTrailing b = t.appendTrailing (a ++ b)) ∧
    (t.tokens = [] → t.appendTrailing a = t) ∧
    ∀ (l : Labelled) (next : Nat), l.forget = t →
      ((l.appendTrailing a).run next).1.forget = t.appendTrailing a := by
  refine ⟨fun h => ?_, appendTrailing_of_tokens_eq_nil a, ?_⟩
  · have hwhole := whole_appendTrailing a h
    obtain ⟨fs, last, hfill, hright, happend⟩ := exists_appendTrailing_eq h
    have htokens : t.tokens = tokensLeft fs ++ [last] := by
      simp [hfill, tokens_fillAll, hright]
    have hafter := tokens_appendTrailing a htokens
    refine ⟨hwhole, ?_, ?_, ?_, ⟨_, last, htokens, hafter⟩, ?_⟩
    · rw [text, text, hafter, htokens, Token.inner_appendTrailing]
    · rw [width_eq_whole, width_eq_whole, hwhole, String.utf8ByteSize_append]
    · have hlast : SameShape (.token (last.appendTrailing a)) (.token last) := sameShape_token rfl
      rw [happend, hfill]
      exact hlast.fillAll fs
    · rw [happend a, appendTrailing_fillAll b (by simp) hright, happend (a ++ b),
        ← Token.appendTrailing_appendTrailing]
      rfl
  · rintro l next rfl
    exact l.forget_appendTrailing a next

/-- The last token is inside a statement, with nodes without tokens after it on two levels. -/
def hollowEnd : Tree :=
  .node .compilationUnit
    [.node .expressionStatement
      [.token ⟨.identifier, " ", "x", " "⟩, .node .argumentList [.node .argument []]],
     .node .typeArgumentList []]

theorem appendTrailing_end_hollowEnd :
    hollowEnd.tokens ≠ [] ∧ (node .typeArgumentList []).tokens = [] ∧
      ((Labelled.fresh hollowEnd).run 7).1.forget = hollowEnd ∧
      (hollowEnd.appendTrailing "é").whole = " x é" ∧
      (hollowEnd.appendTrailing "é").text = "x" ∧
      (hollowEnd.appendTrailing "é").width = 5 ∧
      (hollowEnd.appendTrailing "é").appendTrailing "\n" = hollowEnd.appendTrailing "é\n" ∧
      (node .typeArgumentList []).appendTrailing "é" = node .typeArgumentList [] ∧
      ((((Labelled.fresh hollowEnd).run 7).1.appendTrailing "é").run 10).1.forget =
        hollowEnd.appendTrailing "é" := by
  have htokens : hollowEnd.tokens ≠ [] := by simp [hollowEnd]
  have hnone : (node .typeArgumentList []).tokens = [] := by simp
  have hforget : ((Labelled.fresh hollowEnd).run 7).1.forget = hollowEnd := rfl
  obtain ⟨hsome, -, hlabelled⟩ := appendTrailing_end hollowEnd "é" "\n"
  obtain ⟨hwhole, htext, hwidth, -, -, htwice⟩ := hsome htokens
  refine ⟨htokens, hnone, hforget, hwhole, htext, hwidth, htwice, ?_, hlabelled _ 10 hforget⟩
  exact (appendTrailing_end (node .typeArgumentList []) "é" "").2.1 hnone

end Tree

end CallFill
