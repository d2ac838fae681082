import CallFill.Proofs.OuterTrivia
import CallFill.Proofs.Parentheses

/-!
# Filled calls

Just inside the parentheses of a generated list stands its first wildcard, itself a call with empty
parentheses.  They come after the name of a method, so the search finds what is in front of them,
and the nearest list of arguments is the generated one.  A call whose list got a wildcard is
refused for its arguments; a call whose list got none is a candidate again.
-/

namespace CallFill

open CallFill.Text CallFill.Tree

namespace Place

/-- A place with a text holds the caret in front of its first byte and the one behind it. -/
theorem holds_caret {p : Place} {offset : Nat} {u : Token} (hu : u ∈ p.focus.tokens)
    (htext : u.text ≠ "") (hlead : p.focus.leadingWidth = 0) (hstart : p.start ≤ offset)
    (hstop : offset ≤ p.start + 1) : p.holds (.caret offset) = true := by
  have hne : p.text ≠ "" := Token.inner_ne_empty hu htext
  have hpos := span_start_lt_stop hne
  refine holds_iff.mpr ⟨Span.contains_iff.mpr ?_, hne⟩
  rw [span_start, hlead] at hpos ⊢
  simp only [Span.caret_start, Span.caret_stop]
  omega

/-- A place in front of a text is the outermost of its span. -/
theorem outermostFrom_of_text {t : Tree} {f : Frame} {fs : List Frame} {u : Token}
    (hu : u ∈ tokensAll f.after) (htext : u.text ≠ "") :
    outermostFrom t (f :: fs) = ⟨t, f :: fs⟩ := by
  have hlt := @span_stop_lt_parent t f fs u hu htext
  exact if_neg fun heq => Nat.ne_of_gt hlt (congrArg Span.stop heq)

end Place

namespace Settings

open Place

variable (s : Settings)

/-! ## The first wildcard -/

section

variable (t : Tree) (above : List Frame)

def argumentPlace : Place := ⟨.argument (s.wildcard t), above⟩

def wildcardPlace : Place := ⟨s.wildcard t, ⟨.argument, [], []⟩ :: above⟩

/-- The method that a wildcard calls. -/
def matcherPlace : Place :=
  ⟨.memberAccess (.identifierName s.matcherType)
      (.genericName s.matcherMethod (.typeArguments [t])),
    ⟨.invocation, [], [.argumentList []]⟩ :: ⟨.argument, [], []⟩ :: above⟩

/-- The name in front of the method. -/
def matcherTypePlace : Place :=
  ⟨.identifierName s.matcherType,
    ⟨.memberAccess, [], [.leaf .dot ".", .genericName s.matcherMethod (.typeArguments [t])]⟩ ::
      ⟨.invocation, [], [.argumentList []]⟩ :: ⟨.argument, [], []⟩ :: above⟩

def matcherMethodPlace : Place :=
  ⟨.genericName s.matcherMethod (.typeArguments [t]),
    ⟨.memberAccess, [.leaf .dot ".", .identifierName s.matcherType], []⟩ ::
      ⟨.invocation, [], [.argumentList []]⟩ :: ⟨.argument, [], []⟩ :: above⟩

end

variable {s : Settings} {t : Tree} {above : List Frame}

theorem start_wildcardPlace :
    (s.wildcardPlace t above).start = (s.argumentPlace t above).start := by
  simp [wildcardPlace, argumentPlace, start, Frame.offset]

theorem start_matcherPlace :
    (s.matcherPlace t above).start = (s.argumentPlace t above).start := by
  simp [matcherPlace, argumentPlace, start, Frame.offset]

theorem start_lt_matcherMethodPlace :
    (s.argumentPlace t above).start < (s.matcherMethodPlace t above).start := by
  have hdot : 0 < (leaf .dot ".").width := by decide
  simp only [matcherMethodPlace, argumentPlace, start, Frame.offsetAll_cons, Frame.offset,
    widthAll_cons]
  omega

theorem tokens_wildcardPlace : (s.wildcardPlace t above).focus.tokens =
    (s.matcherPlace t above).focus.tokens ++ [.bare .openParen "(", .bare .closeParen ")"] := by
  simp [wildcardPlace, wildcard, invocation, matcherPlace, argumentList, separated, leaf]

theorem tokens_argumentPlace :
    (s.argumentPlace t above).focus.tokens = (s.wildcardPlace t above).focus.tokens := by
  simp [argumentPlace, argument, wildcardPlace]

/-- A place that begins with the method of a wildcard holds the caret in front of it, even where
the names are empty. -/
theorem holds_of_tokens {p : Place} {ts : List Token}
    (htokens : p.focus.tokens = (s.matcherPlace t above).focus.tokens ++ ts) :
    p.holds (.caret p.start) = true := by
  have heq : p.focus.tokens = .bare .identifier s.matcherType :: .bare .dot "." ::
      (.bare .identifier s.matcherMethod :: .bare .lessThan "<" ::
        (t.tokens ++ [.bare .greaterThan ">"]) ++ ts) := by
    simp [htokens, matcherPlace, memberAccess, identifierName, genericName, typeArguments,
      separated, leaf]
  have hlead : p.focus.leadingWidth = 0 := by
    rw [Tree.leadingWidth, heq]
    rfl
  exact holds_caret (u := .bare .dot ".") (by simp [heq]) (by decide) hlead (Nat.le_refl _)
    (Nat.le_succ _)

theorem argumentPlace_holds :
    (s.argumentPlace t above).holds (.caret (s.argumentPlace t above).start) = true :=
  holds_of_tokens (tokens_argumentPlace.trans tokens_wildcardPlace)

/-- In front of a wildcard the search comes to the method that it calls, or to the name before
the dot. -/
theorem deepest_argumentPlace {c : Span} (hc : c = .caret (s.argumentPlace t above).start) :
    deepest c (s.argumentPlace t above) = s.matcherPlace t above ∨
      deepest c (s.argumentPlace t above) = s.matcherTypePlace t above := by
  have hcall : (s.wildcardPlace t above).holds c = true := by
    rw [hc, ← start_wildcardPlace]
    exact holds_of_tokens tokens_wildcardPlace
  have hmethod : (s.matcherPlace t above).holds c = true := by
    rw [hc, ← start_matcherPlace]
    exact holds_of_tokens (List.append_nil _).symm
  have hdown : deepest c (s.argumentPlace t above) = deepest c (s.matcherPlace t above) :=
    (deepest_of_first rfl hcall).trans (deepest_of_first rfl hmethod)
  have hchildren : (s.matcherPlace t above).children =
      [s.matcherTypePlace t above, s.matcherMethodPlace t above] := rfl
  by_cases htype : (s.matcherTypePlace t above).holds c = true
  · refine .inr ?_
    rw [hdown, deepest_of_first hchildren htype]
    exact deepest_of_none rfl
  · -- the name of the method comes after the dot
    have hname : ¬ (s.matcherMethodPlace t above).holds c = true := by
      intro hholds
      have hcontains := Span.contains_iff.mp (holds_iff.mp hholds).1
      have hlt := @start_lt_matcherMethodPlace s t above
      rw [span_start, hc, Span.caret_start] at hcontains
      omega
    refine .inl ?_
    rw [hdown, deepest_eq, hchildren, List.find?_cons_of_neg htype, List.find?_cons_of_neg hname,
      List.find?_nil]

/-- So the nearest list is the one that the wildcard stands in. -/
theorem outermost_argumentPlace {c : Span} (hc : c = .caret (s.argumentPlace t above).start) :
    ∃ n, outermostFrom (deepest c (s.argumentPlace t above)).focus
        (deepest c (s.argumentPlace t above)).above = n ∧
      n.ancestors.find? (·.isKind .argumentList) =
        (s.argumentPlace t above).ancestors.find? (·.isKind .argumentList) := by
  rcases deepest_argumentPlace hc with hdeep | hdeep
  · have hparen : Token.bare .openParen "(" ∈ tokensAll [argumentList []] := by
      simp [argumentList, leaf]
    refine ⟨s.matcherPlace t above, ?_, rfl⟩
    rw [hdeep]
    exact outermostFrom_of_text hparen (by decide)
  · have hdot : Token.bare .dot "." ∈ tokensAll
        [leaf .dot ".", genericName s.matcherMethod (typeArguments [t])] := by simp [leaf]
    refine ⟨s.matcherTypePlace t above, ?_, rfl⟩
    rw [hdeep]
    exact outermostFrom_of_text hdot (by decide)

/-! ## The generated list -/

theorem filter_separated {ts : List Tree} (h : ∀ t ∈ ts, t.isNode = true) :
    (separated ts).filter isNode = ts := by
  induction ts with
  | nil => rfl
  | cons t ts ih =>
      have ht : t.isNode = true := h t List.mem_cons_self
      have hts := ih fun u hu => h u (List.mem_cons_of_mem t hu)
      cases ts with
      | nil => simp [separated, ht]
      | cons u us =>
          rw [separated, List.filter_cons_of_pos ht, List.filter_cons_of_neg (by decide), hts]
          simp

variable {types : List String} {list : Place}

theorem arguments_brokenList (hlist : list.focus = s.brokenList types) :
    list.arguments.length = (types.filterMap Grammar.namedType?).length := by
  let items := (types.filterMap Grammar.namedType?).map fun t => argument (s.wildcard t)
  have hchildren : list.children.map focus = items := by
    rw [map_focus_children, hlist, brokenList_eq, children_node, List.cons_append,
      List.filter_cons_of_neg (by decide), List.filter_append,
      filter_separated (List.forall_mem_map.mpr fun _ _ => rfl)]
    simp [items, isNode]
  have hargs : list.arguments = list.children := by
    refine List.filter_eq_self.mpr fun q hq => ?_
    have hitem : q.focus ∈ items := hchildren ▸ List.mem_map_of_mem hq
    obtain ⟨t, -, ht⟩ := List.mem_map.mp hitem
    exact isKind_iff.mpr ⟨_, ht.symm⟩
  rw [hargs, ← List.length_map focus, hchildren, List.length_map]

/-- The caret is just inside the parentheses. -/
theorem brokenList_holds (hlist : list.focus = s.brokenList types) :
    list.holds (.caret (list.start + 1)) = true := by
  have htokens := hlist ▸ tokens_brokenList s types
  have hlead : list.focus.leadingWidth = 0 := by
    rw [Tree.leadingWidth, htokens]
    rfl
  exact holds_caret (u := .bare .openParen "(") (by simp [htokens]) (by decide) hlead
    (Nat.le_succ _) (Nat.le_refl _)

theorem exists_brokenList_eq (hne : types.filterMap Grammar.namedType? ≠ []) :
    ∃ t rest, s.brokenList types =
      .node .argumentList (leaf .openParen "(" :: .argument (s.wildcard t) :: rest) := by
  obtain ⟨t, ts, hts⟩ := List.exists_cons_of_ne_nil hne
  rw [brokenList_eq, hts]
  cases ts with
  | nil => exact ⟨t, _, rfl⟩
  | cons u us => exact ⟨t, _, rfl⟩

/-- There the search finds a place in the first wildcard, whose nearest list is this one. -/
theorem find?_brokenList (hlist : list.focus = s.brokenList types)
    (hne : types.filterMap Grammar.namedType? ≠ []) :
    ∃ n, list.find? (.caret (list.start + 1)) = some n ∧
      n.ancestors.find? (·.isKind .argumentList) = some list := by
  have hholds := brokenList_holds hlist
  obtain ⟨t, rest, hfirst⟩ := exists_brokenList_eq (s := s) hne
  let first := s.argumentPlace t (⟨.argumentList, [leaf .openParen "("], rest⟩ :: list.above)
  have hparent : first.parent? = some list := by
    simp only [first, argumentPlace, parent?_cons, Frame.fill, List.reverse_singleton,
      List.singleton_append, ← hfirst, ← hlist]
  obtain ⟨others, hchildren⟩ : ∃ others, list.children = first :: others := by
    rw [Place.children, hlist, hfirst]
    exact ⟨_, rfl⟩
  have hstart : list.start + 1 = first.start := by
    have hparen : (leaf .openParen "(").width = 1 := by decide
    simp only [first, argumentPlace, start, Frame.offsetAll_cons, Frame.offset, widthAll_cons,
      widthAll_nil, hparen]
    omega
  obtain ⟨n, houter, hnearest⟩ := outermost_argumentPlace (c := .caret first.start) rfl
  refine ⟨n, ?_, ?_⟩
  · rw [find?_of_holds hholds, hstart, deepest_of_first hchildren argumentPlace_holds, houter]
  · have hkind : list.isKind .argumentList = true := isKind_iff.mpr ⟨_, hlist.trans hfirst⟩
    rw [hnearest, ancestors_of_parent? hparent, List.find?_cons_of_neg Bool.false_ne_true]
    exact find?_ancestors_self hkind

end Settings

namespace Offer

open Place

/-! ## The call -/

theorem candidateAt_argumentsPresent {n list : Place}
    (h : n.ancestors.find? (·.isKind .argumentList) = some list)
    (hne : list.arguments.length ≠ 0) :
    candidateAt n = .error (.argumentsPresent list.arguments.length) := by
  rw [candidateAt, h]
  exact if_pos hne

namespace BareCall

/-- The call with an empty list that was generated. -/
def refilled (b : BareCall) (s : Settings) : BareCall :=
  { b with
    opening := .bare .openParen "("
    closing := ⟨.closeParen, "", ")", s.lineEnding.lineBreak⟩
    opening_kind := rfl
    closing_kind := rfl }

/-- The place of the list that is generated for the call. -/
def filledPlace (b : BareCall) (s : Settings) (types : List String) : Place :=
  Rewrite.listPlace b.access (s.brokenList types) b.above

theorem focus_filledPlace (b : BareCall) (s : Settings) (types : List String) :
    (b.filledPlace s types).focus = s.brokenList types := rfl

variable {b : BareCall} {s : Settings} {types : List String}

theorem listPlace_refilled (h : types.filterMap Grammar.namedType? = []) :
    (b.refilled s).listPlace = b.filledPlace s types := by
  have hlist : (b.refilled s).list = s.brokenList types := by
    rw [Settings.brokenList_eq, h]
    rfl
  rw [listPlace, hlist]
  rfl

theorem find?_listPlace (h : b.calleePlace.text ≠ "") {c : Span}
    (hc : b.listPlace.holds c = true) : b.listPlace.find? c = some b.listPlace := by
  rw [find?_of_holds hc, deepest_listPlace, outermostFrom_listPlace h]

theorem find?_filledPlace (hne : types.filterMap Grammar.namedType? ≠ []) :
    ∃ n, (b.filledPlace s types).find? (.caret ((b.filledPlace s types).start + 1)) = some n ∧
      candidateAt n =
        .error (.argumentsPresent (types.filterMap Grammar.namedType?).length) := by
  have hlist := b.focus_filledPlace s types
  obtain ⟨n, hfind, hnearest⟩ := Settings.find?_brokenList hlist hne
  have hcount := Settings.arguments_brokenList hlist
  refine ⟨n, hfind, ?_⟩
  rw [← hcount]
  exact candidateAt_argumentsPresent hnearest (by simpa [hcount] using hne)

theorem find?_filledPlace_of_nil (h : b.calleePlace.text ≠ "")
    (hnil : types.filterMap Grammar.namedType? = []) :
    ∃ n, (b.filledPlace s types).find? (.caret ((b.filledPlace s types).start + 1)) = some n ∧
      candidateAt n = .ok (b.refilled s).candidate := by
  have hholds := Settings.brokenList_holds (b.focus_filledPlace s types)
  have hcallee : (b.refilled s).calleePlace.text ≠ "" := h
  rw [← listPlace_refilled hnil] at hholds ⊢
  exact ⟨_, find?_listPlace hcallee hholds, candidateAt_of_nearest _ (find?_ancestors_self rfl)⟩

end BareCall

namespace Rewrite

/-- The number of parameters that a rewrite has a wildcard for. -/
def wildcardCount (m : Method) : Nat :=
  m.parameterTypes.countP fun t => (Grammar.namedType? t).isSome

theorem wildcardCount_eq (m : Method) :
    wildcardCount m = (m.parameterTypes.filterMap Grammar.namedType?).length :=
  List.length_filterMap_eq_countP.symm

/-- Just inside its new parentheses a filled call is refused for the arguments that it got; if it
got none it is a candidate again. -/
theorem candidateAt_filled {source : String} {d : Document}
    (hd : Grammar.document source = .ok d.root) {p : Place} (hp : p.root = d.root) {c : Candidate}
    (hc : candidateAt p = .ok c) (title : String) (m : Method) (s : Settings) (stamp : Nat) :
    ∃ d' n, (ofMethod title d ⟨c.call, d.snapshot.stamp⟩ m s).apply false stamp = .ok d' ∧
      (Place.ofRoot d'.root).find? (.caret (c.list.fullSpan.start + 1)) = some n ∧
      (1 ≤ wildcardCount m → candidateAt n = .error (.argumentsPresent (wildcardCount m))) ∧
      (wildcardCount m = 0 → ∃ c', candidateAt n = .ok c' ∧ c'.call.root = d'.root ∧
        c'.call.path = c.call.path) := by
  have hfits : p.root.Fits := hp ▸ Grammar.document_fits hd
  obtain ⟨b, rfl, hroot⟩ := exists_bareCall_of_candidateAt hfits hc
  rw [hp] at hroot
  have hfocus : b.call.focus = .node .invocation [b.access, b.list] := rfl
  have happly :=
    apply_eq (r := ofMethod title d ⟨b.call, d.snapshot.stamp⟩ m s) rfl hfocus rfl stamp
  have hlist := b.focus_filledPlace s m.parameterTypes
  have hnode : (b.filledPlace s m.parameterTypes).focus.isNode = true := by
    rw [hlist, Settings.brokenList_eq, isNode]
  have hfind := find?_root_of_lt hnode (Settings.brokenList_holds hlist) (Nat.lt_succ_self _)
  have hcount := wildcardCount_eq m
  by_cases hnil : m.parameterTypes.filterMap Grammar.namedType? = []
  · obtain ⟨n, hn, hcandidate⟩ := BareCall.find?_filledPlace_of_nil (s := s)
      (BareCall.callee_text (hroot ▸ hd)) hnil
    rw [hnil, List.length_nil] at hcount
    refine ⟨_, n, happly, hfind.trans hn, by omega, fun _ => ⟨_, hcandidate, ?_, rfl⟩⟩
    exact congrArg Place.root (BareCall.listPlace_refilled hnil)
  · obtain ⟨n, hn, hrefused⟩ := BareCall.find?_filledPlace (b := b) (s := s) hnil
    have hpos := List.length_pos_iff.mpr hnil
    refine ⟨_, n, happly, hfind.trans hn, fun _ => hcount ▸ hrefused, by omega⟩

/-- Two of the three parameters get a wildcard, whose method stands behind an empty name. -/
theorem candidateAt_filled_notedList :
    Grammar.document "a.b // note\n();" = .ok notedList.root ∧ ∃ c d' n,
      candidateAt notedList = .ok c ∧
      (ofMethod "fill" (.ofRoot "A.cs" notedList.root 0) ⟨c.call, 0⟩
        ⟨"I", "b", [⟨"x", "int"⟩, ⟨"y", "1"⟩, ⟨"z", "A.B[]"⟩]⟩
        { matcherType := "" }).apply false 1 = .ok d' ∧
      (Place.ofRoot d'.root).find? (.caret 13) = some n ∧
      candidateAt n = .error (.argumentsPresent 2) := by
  let m : Method := ⟨"I", "b", [⟨"x", "int"⟩, ⟨"y", "1"⟩, ⟨"z", "A.B[]"⟩]⟩
  have hd : Grammar.document "a.b // note\n();" = .ok notedList.root := rfl
  obtain ⟨c, hc, hstart⟩ :
      ∃ c, candidateAt notedList = .ok c ∧ c.list.fullSpan.start + 1 = 13 :=
    ⟨_, rfl, by decide +kernel⟩
  have hcount : wildcardCount m = 2 := by decide +kernel
  obtain ⟨d', n, happly, hfind, hrefused, -⟩ := candidateAt_filled
    (d := .ofRoot "A.cs" notedList.root 0) hd (p := notedList) rfl hc "fill" m
    { matcherType := "" } 1
  rw [hstart] at hfind
  rw [hcount] at hrefused
  exact ⟨hd, c, d', n, hc, happly, hfind, hrefused (by decide)⟩

end Rewrite

end Offer

end CallFill
