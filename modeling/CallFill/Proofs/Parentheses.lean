import CallFill.Proofs.Selecting

/-!
# Selections within empty parentheses

A selection has a candidate exactly when it lies within the empty parentheses of a call of a
member, both ends included.  Only the caret right behind the callee does not count when the
parentheses follow at once, since there the callee is the first to hold it.
-/

namespace CallFill

open CallFill.Text CallFill.Tree

/-! ## Texts in a document -/

/-- Only the end of a document has no text. -/
theorem Grammar.document_text_ne_empty {source : String} {root : Tree}
    (h : Grammar.document source = .ok root) :
    ∀ u ∈ root.tokens, u.kind ≠ .endOfFile → u.text ≠ "" := by
  obtain ⟨-, -, ts, trivia, htokens, hcut, -⟩ := Grammar.document_iff.mp h
  intro u hu hkind hempty
  rw [htokens] at hu
  rcases List.mem_append.mp hu with hu | hu
  · obtain ⟨c, cs, hcons⟩ := (Lexical.spelled_of_tokens hcut u hu).eq_cons
    simp [hempty] at hcons
  · obtain rfl := List.mem_singleton.mp hu
    exact hkind rfl

theorem Place.mem_tokens_root {p : Place} {u : Token} (h : u ∈ p.focus.tokens) :
    u ∈ p.root.tokens := by
  rw [root, tokens_fillAll]
  exact List.mem_append_left _ (List.mem_append_right _ h)

/-- In a document a place has a text when it has a token other than the end. -/
theorem Place.text_ne_empty {source : String} {p : Place} {u : Token}
    (h : Grammar.document source = .ok p.root) (hu : u ∈ p.focus.tokens)
    (hkind : u.kind ≠ .endOfFile) : p.text ≠ "" :=
  Token.inner_ne_empty hu
    (Grammar.document_text_ne_empty h u (Place.mem_tokens_root hu) hkind)

namespace Offer

open Place

/-! ## The spans of a call -/

namespace BareCall

variable {b : BareCall} {source : String} {s : Span}

theorem callee_text (h : Grammar.document source = .ok b.call.root) :
    b.calleePlace.text ≠ "" :=
  Place.text_ne_empty (p := b.calleePlace) (u := b.dot) h (by simp [calleePlace, access])
    (by rw [b.dot_kind]; decide)

theorem list_text (h : Grammar.document source = .ok b.call.root) : b.listPlace.text ≠ "" :=
  Place.text_ne_empty (p := b.listPlace) (u := b.opening) h
    (by simp [listPlace, Rewrite.listPlace, list]) (by rw [b.opening_kind]; decide)

/-- The list begins where the callee ends. -/
theorem start_listPlace (b : BareCall) : b.listPlace.start = b.calleePlace.fullSpan.stop := by
  simp [listPlace, Rewrite.listPlace, calleePlace, Place.start, Place.fullSpan, Frame.offset]
  omega

/-- The text of the callee begins, then it ends, then that of the list begins. -/
theorem span_lt (h : b.calleePlace.text ≠ "") :
    b.call.span.start ≤ b.calleePlace.span.start ∧
      b.calleePlace.span.start < b.calleePlace.span.stop ∧
      b.calleePlace.span.stop ≤ b.listPlace.span.start := by
  have hcall := span_ancestor_contains (p := b.call) (q := b.calleePlace)
    (by simp [calleePlace, access]) (mem_ancestors_of_parent? (mem_ancestors_self _) rfl)
  have htext := span_start_lt_stop h
  have hfull := Span.contains_iff.mp b.calleePlace.fullSpan_contains_span
  have hlist := b.listPlace.span_start
  rw [start_listPlace] at hlist
  omega

/-- The call begins before its list, so it has another span. -/
theorem outermostFrom_listPlace (h : b.calleePlace.text ≠ "") :
    outermostFrom b.listPlace.focus b.listPlace.above = b.listPlace := by
  have hspans := span_lt h
  have hne : b.call.span ≠ b.listPlace.span := fun heq => by
    have hstart := congrArg Span.start heq
    omega
  exact if_neg hne

@[simp] theorem deepest_listPlace (b : BareCall) (s : Span) :
    deepest s b.listPlace = b.listPlace := deepest_of_none rfl

/-! ## Finding the list -/

theorem listPlace_holds (h : Grammar.document source = .ok b.call.root)
    (hs : b.listPlace.span.contains s = true) : b.listPlace.holds s = true :=
  holds_iff.mpr ⟨hs, list_text h⟩

/-- On the way down to the list, no node on the left holds the selection. -/
theorem not_holds_left (h : Grammar.document source = .ok b.call.root)
    (hs : b.listPlace.span.contains s = true) (horder : s.start ≤ s.stop)
    (hcaret : s ≠ .caret b.calleePlace.span.stop) {r p q : Place}
    (hr : r ∈ b.listPlace.ancestors) (hp : r.parent? = some p) (hq : q ∈ p.children)
    (hleft : q.fullSpan.stop ≤ r.start) : q.holds s = false := by
  rw [← Bool.not_eq_true, holds_iff]
  rintro ⟨hcontains, -⟩
  rw [Span.contains_iff] at hs hcontains
  have hfull := Span.contains_iff.mp q.fullSpan_contains_span
  have hspans := span_lt (callee_text h)
  obtain rfl | hr : r = b.listPlace ∨ r ∈ b.call.ancestors := List.mem_cons.mp hr
  · -- beside the list there is the callee alone
    obtain rfl : b.call = p := Option.some.inj hp
    have hq : q = b.calleePlace ∨ q = b.listPlace := by simpa using hq
    have hstart := b.listPlace.span_start
    rcases hq with rfl | rfl
    · refine hcaret ?_
      have hbegin : s.start = b.calleePlace.span.stop := by omega
      have hend : s.stop = b.calleePlace.span.stop := by omega
      cases s
      simp_all [Span.caret]
    · have hlist := span_start_lt_stop (list_text h)
      omega
  · -- what is above the call begins before the callee
    have hcall := span_ancestor_contains (p := r) (q := b.call) (by simp [call, access]) hr
    have hstart := r.span_start
    omega

theorem find?_eq_listPlace (h : Grammar.document source = .ok b.call.root)
    (hs : b.listPlace.span.contains s = true) (horder : s.start ≤ s.stop)
    (hcaret : s ≠ .caret b.calleePlace.span.stop) :
    (ofRoot b.call.root).find? s = some b.listPlace := by
  have hlist := listPlace_holds h hs
  have hdeep : deepest s (ofRoot b.listPlace.root) = b.listPlace := by
    have hpath : deepest s (ofRoot b.listPlace.root) = deepest s b.listPlace := by
      refine deepest_root fun r hr p hp => ?_
      exact find?_children hp (isNode_of_mem_ancestors rfl hr) (holds_of_mem_ancestors hlist hr)
        fun q hq hleft => not_holds_left h hs horder hcaret hr hp hq hleft
    rw [hpath, deepest_listPlace]
  rw [← root_listPlace, find?_of_holds (holds_of_mem_ancestors hlist (ofRoot_mem_ancestors _)),
    hdeep, outermostFrom_listPlace (callee_text h)]

/-- A selection whose node has a candidate lies within the parentheses of the candidate. -/
theorem within_of_find? (h : Grammar.document source = .ok b.call.root)
    (hfind : (ofRoot b.call.root).find? s = some b.listPlace) :
    b.listPlace.span.contains s = true ∧ s ≠ .caret b.calleePlace.span.stop := by
  have hroot : (ofRoot b.call.root).focus.isNode = true :=
    isNode_of_mem_ancestors (q := b.call) rfl (ofRoot_mem_ancestors b.call)
  have hdeep : b.listPlace = deepest s (ofRoot b.call.root) :=
    eq_of_mem_ancestors (isNode_deepest s hroot) rfl (mem_ancestors_of_find? hfind)
  rcases deepest_eq_or s (ofRoot b.call.root) with hroot | ⟨q, -, hq⟩
  · -- the list is not the root
    have habove := congrArg Place.above (hdeep.trans hroot)
    cases habove
  · rw [← hdeep] at hq
    obtain ⟨hholds, lefts, rights, hchildren, hbefore⟩ := List.find?_eq_some_iff_append.mp hq
    obtain rfl : b.call = q := by
      have hmem := (mem_children.mp (List.mem_of_find?_eq_some hq)).2
      exact Option.some.inj hmem
    refine ⟨(holds_iff.mp hholds).1, ?_⟩
    rintro rfl
    have hcallee : b.calleePlace ∈ lefts := by
      rw [children_call] at hchildren
      rcases lefts with _ | ⟨x, xs⟩
      · have habove := congrArg Place.above (List.cons.inj hchildren).1
        simp [calleePlace, listPlace, Rewrite.listPlace] at habove
      · simp [(List.cons.inj hchildren).1]
    have hspans := span_lt (callee_text h)
    have hno := hbefore b.calleePlace hcallee
    rw [Bool.not_eq_true', ← Bool.not_eq_true, holds_iff] at hno
    refine hno ⟨Span.contains_iff.mpr ?_, callee_text h⟩
    simp only [Span.caret_start, Span.caret_stop]
    omega

end BareCall

/-- A selection within the parentheses of a call of a member that has no arguments.  The caret
right behind the callee is not within them. -/
structure Within (root : Tree) (s : Span) (call callee list : Place) : Prop where
  call_mem : call ∈ (ofRoot root).descendants
  call_kind : call.isKind .invocation = true
  callee_eq : call.callee? = some callee
  callee_kind : callee.isKind .memberAccess = true
  list_eq : call.argumentList? = some list
  list_empty : list.arguments = []
  contains : list.span.contains s = true
  ne_caret : s ≠ .caret callee.span.stop

theorem Within.exists_bareCall {root : Tree} {s : Span} {call callee list : Place}
    (hfits : root.Fits) (h : Within root s call callee list) :
    ∃ b : BareCall, b.call.root = root ∧ call = b.call ∧ callee = b.calleePlace ∧
      list = b.listPlace := by
  have hroot := (mem_descendants_ofRoot.mp h.call_mem).2
  obtain ⟨b, rfl, rfl, rfl⟩ := Offer.exists_bareCall (hroot ▸ hfits) h.call_kind h.callee_eq
    h.callee_kind h.list_eq (by simp [h.list_empty])
  exact ⟨b, hroot, rfl, rfl, rfl⟩

theorem BareCall.within {b : BareCall} {s : Span} (hs : b.listPlace.span.contains s = true)
    (hcaret : s ≠ .caret b.calleePlace.span.stop) :
    Within b.call.root s b.call b.calleePlace b.listPlace :=
  ⟨mem_descendants_ofRoot.mpr ⟨rfl, rfl⟩, rfl, callee?_call b, rfl, argumentList?_call b,
    arguments_listPlace b, hs, hcaret⟩

/-- A selection has a candidate exactly when it is within the empty parentheses of a call of a
member; there is one such call at most, and the candidate is that call. -/
theorem candidate_iff_within {source : String} {root : Tree}
    (hd : Grammar.document source = .ok root) {s : Span} (hs : s.start ≤ s.stop) :
    ((∃ n c, (ofRoot root).find? s = some n ∧ candidateAt n = .ok c) ↔
      ∃ call callee list, Within root s call callee list) ∧
    ∀ call callee list, Within root s call callee list →
      (∀ call' callee' list', Within root s call' callee' list' → call' = call) ∧
      ∀ n c, (ofRoot root).find? s = some n → candidateAt n = .ok c →
        c.call = call ∧ c.list = list ∧ call.argumentList? = some c.list ∧
          callee.children.head? = some c.receiver := by
  have hfits := Grammar.document_fits hd
  refine ⟨⟨?_, ?_⟩, ?_⟩
  · rintro ⟨n, c, hfind, hc⟩
    have hroot : n.root = root := root_of_find? hfind
    have hnode : n.focus.isNode = true := by
      refine isNode_of_find? ?_ hfind
      obtain ⟨statements, rfl⟩ := face_eq_node_iff.mp (Grammar.document_iff.mp hd).2.1
      rfl
    obtain ⟨b, rfl, rfl⟩ := (candidateAt_node_eq_ok (hroot ▸ hfits) hnode).mp hc
    obtain rfl : b.call.root = root := hroot
    obtain ⟨hs, hcaret⟩ := BareCall.within_of_find? hd hfind
    exact ⟨b.call, b.calleePlace, b.listPlace, BareCall.within hs hcaret⟩
  · rintro ⟨call, callee, list, h⟩
    obtain ⟨b, rfl, rfl, rfl, rfl⟩ := h.exists_bareCall hfits
    exact ⟨b.listPlace, b.candidate, BareCall.find?_eq_listPlace hd h.contains hs h.ne_caret,
      (candidateAt_node_eq_ok (n := b.listPlace) hfits rfl).mpr ⟨b, rfl, rfl⟩⟩
  · intro call callee list h
    obtain ⟨b, rfl, rfl, rfl, rfl⟩ := h.exists_bareCall hfits
    have hfind := BareCall.find?_eq_listPlace hd h.contains hs h.ne_caret
    constructor
    · intro call' callee' list' h'
      obtain ⟨b', hroot, rfl, rfl, rfl⟩ := h'.exists_bareCall hfits
      have hfind' := BareCall.find?_eq_listPlace (b := b') (hroot ▸ hd) h'.contains hs h'.ne_caret
      rw [hroot, hfind] at hfind'
      have hlist := congrArg Place.parent? (Option.some.inj hfind')
      simpa using hlist.symm
    · intro n c hn hc
      obtain rfl := Option.some.inj (hfind.symm.trans hn)
      obtain ⟨b', rfl, hb⟩ := (candidateAt_node_eq_ok (n := b.listPlace) hfits rfl).mp hc
      obtain rfl := BareCall.eq_of_listPlace_eq hb
      exact ⟨rfl, rfl, BareCall.argumentList?_call b, BareCall.receiver?_calleePlace b⟩

/-- A call among the arguments of another call. -/
def innerCall : Place :=
  ⟨.invocation (.memberAccess (.identifierName "c") (.identifierName "d")) (.argumentList []),
    [⟨.argument, [], []⟩,
      ⟨.argumentList, [.leaf .openParen "("], [.leaf .closeParen ")"]⟩,
      ⟨.invocation, [.memberAccess (.identifierName "a") (.identifierName "b")], []⟩,
      ⟨.expressionStatement, [], [.leaf .semicolon ";"]⟩,
      ⟨.compilationUnit, [], [Grammar.endOfFile ""]⟩]⟩

theorem candidate_iff_within_innerCall :
    Grammar.document "a.b(c.d());" = .ok innerCall.root ∧ Span.start ⟨8, 9⟩ ≤ Span.stop ⟨8, 9⟩ ∧
      ∃ n c, (ofRoot innerCall.root).find? ⟨8, 9⟩ = some n ∧ candidateAt n = .ok c ∧
        c.call = innerCall := by
  have hd : Grammar.document "a.b(c.d());" = .ok innerCall.root := rfl
  have hs : Span.start ⟨8, 9⟩ ≤ Span.stop ⟨8, 9⟩ := by decide
  obtain ⟨hiff, hunique⟩ := candidate_iff_within hd hs
  have hwithin : ∃ callee list, Within innerCall.root ⟨8, 9⟩ innerCall callee list :=
    ⟨_, _, mem_descendants_ofRoot.mpr ⟨rfl, rfl⟩, rfl, rfl, rfl, rfl, rfl, by decide +kernel,
      by decide +kernel⟩
  obtain ⟨callee, list, hwithin⟩ := hwithin
  obtain ⟨n, c, hfind, hc⟩ := hiff.mpr ⟨_, _, _, hwithin⟩
  exact ⟨hd, hs, n, c, hfind, hc, ((hunique _ _ _ hwithin).2 n c hfind hc).1⟩

end Offer

end CallFill
