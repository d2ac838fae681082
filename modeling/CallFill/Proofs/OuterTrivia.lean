import CallFill.Proofs.Candidates
import CallFill.Proofs.Spans
import CallFill.Tree.Selection

/-!
# The trivia around a list

Trivia belongs to tokens.  The generated list comes with tokens of its own, so the trivia before
the old parentheses and after them goes with the old tokens, and a rewrite keeps the text around
the parentheses exactly when there is no such trivia.
-/

namespace CallFill

open CallFill.Text CallFill.Tree

/-- The text of a place stands between what flanks its span. -/
theorem Place.flanks_span (p : Place) : Flanks p.root.whole p.span
    (Token.wholeAll (tokensLeft p.above) ++ Token.leadingText p.focus.tokens)
    (Token.trailingText p.focus.tokens ++ Token.wholeAll (tokensRight p.above)) :=
  ⟨p.text, p.around_text⟩

/-- A span is full when there is no trivia at its ends. -/
theorem Place.span_eq_fullSpan_iff (p : Place) : p.span = p.fullSpan ↔
    Token.leadingText p.focus.tokens = "" ∧ Token.trailingText p.focus.tokens = "" := by
  rw [← String.utf8ByteSize_eq_zero_iff, ← String.utf8ByteSize_eq_zero_iff,
    ← Token.leadingWidth_eq, ← Token.trailingWidth_eq]
  have hwidth := p.width_focus
  simp only [span, fullSpan, Span.mk.injEq, leadingWidth, trailingWidth] at hwidth ⊢
  omega

namespace Offer.Rewrite

/-- What stands around the old list, its own trivia left out, stands around the new one. -/
theorem apply_bareCall (b : BareCall) (d : Document) (title : String) (m : Method) (s : Settings)
    (stamp : Nat) :
    ∃ d', (ofMethod title d ⟨b.call, d.snapshot.stamp⟩ m s).apply false stamp = .ok d' ∧
      d'.text = Token.wholeAll (Place.tokensLeft b.listPlace.above) ++
        (s.wildcards m.parameterTypes).whole ++ s.lineEnding.lineBreak ++
          Token.wholeAll (Place.tokensRight b.listPlace.above) := by
  have hfocus : b.call.focus = .node .invocation [b.access, b.list] := rfl
  refine ⟨_, apply_eq rfl hfocus rfl stamp, ?_⟩
  have hwhole := Place.whole_replace b.listPlace (s.brokenList m.parameterTypes)
  rw [Settings.whole_brokenList, ← String.append_assoc] at hwhole
  exact hwhole

/-- Two texts put around a part of another change it unless both are empty. -/
theorem around_eq_iff {before leading list trailing lineBreak after : String} :
    before ++ list ++ lineBreak ++ after =
      before ++ leading ++ list ++ trailing ++ lineBreak ++ after ↔
        leading = "" ∧ trailing = "" := by
  constructor
  · intro h
    have hsize := congrArg String.utf8ByteSize h
    simp only [String.utf8ByteSize_append] at hsize
    rw [← String.utf8ByteSize_eq_zero_iff, ← String.utf8ByteSize_eq_zero_iff]
    omega
  · rintro ⟨rfl, rfl⟩
    simp

/-- The text around the whole of the list stays.  The text around its parentheses, with the line
break behind the trivia that follows them, stays just when no trivia is at either end. -/
theorem apply_keeps_trivia_iff {source : String} {d : Document}
    (hd : Grammar.document source = .ok d.root) {n : Place} (hn : n.root = d.root)
    {c : Candidate} (hc : candidateAt n = .ok c) (title : String) (m : Method) (s : Settings)
    (stamp : Nat) :
    ∃ d' before after kept trailing,
      (ofMethod title d ⟨c.call, d.snapshot.stamp⟩ m s).apply false stamp = .ok d' ∧
      Flanks d.text c.list.fullSpan before after ∧
      Flanks d.text c.list.span kept (trailing ++ after) ∧
      d'.text = before ++ (s.wildcards m.parameterTypes).whole ++ s.lineEnding.lineBreak ++
        after ∧
      (d'.text = kept ++ (s.wildcards m.parameterTypes).whole ++ trailing ++
          s.lineEnding.lineBreak ++ after ↔ c.list.span = c.list.fullSpan) := by
  have hfits : n.root.Fits := hn ▸ Grammar.document_fits hd
  obtain ⟨b, rfl, hnearest⟩ := (candidateAt_eq_ok hfits).mp hc
  have hroot : b.listPlace.root = d.root :=
    (Place.root_of_mem_ancestors (List.mem_of_find?_eq_some hnearest)).trans hn
  obtain ⟨d', happly, htext⟩ := apply_bareCall b d title m s stamp
  have hfull := b.listPlace.flanks
  have hspan := b.listPlace.flanks_span
  rw [hroot] at hfull hspan
  refine ⟨d', _, _, _, _, happly, hfull, hspan, htext, ?_⟩
  rw [htext, BareCall.candidate, Place.span_eq_fullSpan_iff]
  exact around_eq_iff

/-- A call with comments before its parentheses and after them. -/
def commentedCall : Place :=
  ⟨.invocation (.node .memberAccess [.identifierName "x", .leaf .dot ".",
      .node .identifierName [.token ⟨.identifier, "", "M", " // a\n"⟩]])
      (.node .argumentList [.token ⟨.openParen, "// b\n", "(", ""⟩,
        .token ⟨.closeParen, "", ")", " // c\n"⟩]),
    [⟨.expressionStatement, [], [.leaf .semicolon ";"]⟩,
      ⟨.compilationUnit, [], [Grammar.endOfFile ""]⟩]⟩

/-- The comments around the parentheses are lost. -/
theorem apply_drops_comments :
    Grammar.document "x.M // a\n// b\n() // c\n;" = .ok commentedCall.root ∧
      ∃ n c d', (Place.ofRoot commentedCall.root).find? (.caret 15) = some n ∧
        candidateAt n = .ok c ∧ c.call = commentedCall ∧
        (ofMethod "fill" (.ofRoot "A.cs" commentedCall.root 0) ⟨c.call, 0⟩
          ⟨"I", "M", [⟨"n", "int"⟩]⟩ {}).apply false 1 = .ok d' ∧
        d'.text = "x.M // a\n(Arg.Any<int>())\r\n;" ∧
        d'.text ≠ "x.M // a\n// b\n(Arg.Any<int>()) // c\n\r\n;" := by
  refine ⟨rfl, _, _, _, rfl, rfl, rfl, rfl, ?_, ?_⟩ <;> decide +kernel

/-- The list of a call with a comment that belongs to the name before it. -/
def notedList : Place :=
  ⟨.argumentList [],
    [⟨.invocation, [.node .memberAccess [.identifierName "a", .leaf .dot ".",
        .node .identifierName [.token ⟨.identifier, "", "b", " // note\n"⟩]]], []⟩,
      ⟨.expressionStatement, [], [.leaf .semicolon ";"]⟩,
      ⟨.compilationUnit, [], [Grammar.endOfFile ""]⟩]⟩

theorem apply_keeps_trivia_notedList :
    Grammar.document "a.b // note\n();" = .ok notedList.root ∧ ∃ c d' kept trailing after,
      candidateAt notedList = .ok c ∧
      (ofMethod "fill" (.ofRoot "A.cs" notedList.root 0) ⟨c.call, 0⟩
        ⟨"I", "b", [⟨"x", "int"⟩]⟩ {}).apply false 1 = .ok d' ∧
      Flanks notedList.root.whole c.list.span kept (trailing ++ after) ∧
      d'.text = kept ++ "(Arg.Any<int>())" ++ trailing ++ "\r\n" ++ after := by
  have hd : Grammar.document "a.b // note\n();" = .ok notedList.root := rfl
  have hnew : (Settings.wildcards {} ["int"]).whole = "(Arg.Any<int>())" := by decide +kernel
  obtain ⟨c, hc, hbare⟩ : ∃ c, candidateAt notedList = .ok c ∧ c.list.span = c.list.fullSpan :=
    ⟨_, rfl, by decide +kernel⟩
  obtain ⟨d', before, after, kept, trailing, happly, -, hspan, -, hiff⟩ :=
    apply_keeps_trivia_iff (d := .ofRoot "A.cs" notedList.root 0) hd (n := notedList) rfl hc "fill"
      ⟨"I", "b", [⟨"x", "int"⟩]⟩ {} 1
  have htext := hiff.mpr hbare
  rw [Method.parameterTypes, List.map_cons, List.map_nil, hnew] at htext
  exact ⟨hd, c, d', kept, trailing, after, hc, happly, hspan, htext⟩

end Offer.Rewrite

end CallFill
