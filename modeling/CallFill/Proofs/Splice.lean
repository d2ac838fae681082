import CallFill.Proofs.Rewriting

/-!
# A rewritten document is read back

The tokens of a document stay the tokens of its text when a rewrite puts the generated list among
them.  The tokens in front of the old list stood before its parenthesis, be it behind trivia that
ended a line, and those behind it now stand behind a line break.
-/

namespace CallFill

/-! ## In front of a parenthesis -/

namespace Lexical

/-- What stood before a parenthesis with its trivia stands before a bare parenthesis. -/
theorem Settled.before_paren {ts us : List Token} {opening : Token} {x : List Char}
    (hts : Settled ts ((Token.wholeAll (opening :: us)).toList ++ x))
    (hopening : Settles opening ((Token.wholeAll us).toList ++ x))
    (hkind : opening.kind = .openParen)
    (hcr : CrLf ((Token.wholeAll (ts ++ opening :: us)).toList ++ x)) (hne : ts ≠ [])
    (y : List Char) : Settled ts ('(' :: y) := by
  obtain ⟨init, last, rfl⟩ : ∃ init last, ts = init ++ [last] :=
    ⟨_, _, (List.dropLast_concat_getLast hne).symm⟩
  let rest := (Token.wholeAll (opening :: us)).toList ++ x
  obtain ⟨hinit, hlast, -⟩ := settled_append.mp hts
  have hlast : Settles last rest := by simpa [rest] using hlast
  have hline : CrLf (last.trailing.toList ++ rest) := by
    refine CrLf.of_append (u := (Token.wholeAll init).toList ++
      (last.leading.toList ++ last.text.toList)) ?_
    simpa [Token.whole, rest] using hcr
  obtain ⟨hlead, hlex, -⟩ := settles_iff.mp hopening
  have hrest : rest = opening.leading.toList ++ (opening.text.toList ++
      (opening.trailing.toList ++ ((Token.wholeAll us).toList ++ x))) := by
    simp [rest, Token.whole]
  -- the last token ended its line, or the parenthesis stood right behind its trivia
  rcases trailing_stop (settles_iff.mp hlast).2.2 hline with ⟨v, hv⟩ | hstart
  · have halike : Alike ((Token.wholeAll [last]).toList ++ rest)
        ((Token.wholeAll [last]).toList ++ '(' :: y) := by
      have hwhole : (Token.wholeAll [last]).toList =
          last.leading.toList ++ last.text.toList ++ v ++ ['\n'] := by
        simp [Token.whole, hv]
      rw [hwhole, List.append_assoc _ ['\n'], List.append_assoc _ ['\n']]
      exact .append _ (.newline rest ('(' :: y))
    exact settled_append.mpr ⟨hinit.alike halike, hlast.of_newline hv _, trivial⟩
  · rw [hrest, hlead] at hstart
    obtain ⟨hnone, -⟩ := Prod.mk.inj hstart
    rw [hkind] at hlex
    have htext : opening.text.toList = ['('] := hlex.eq_mark rfl
    rw [hnone, htext] at hrest
    refine hts.alike ?_
    show Alike rest ('(' :: y)
    rw [hrest]
    exact .bracket (by decide) (by decide) _ y

end Lexical

/-! ## When a tree is read -/

namespace Grammar

open CallFill.Tree CallFill.Lexical

/-- A tree is what a text is read as when it fits and its tokens are those of the text. -/
theorem document_iff {source : String} {root : Tree} : document source = .ok root ↔
    root.Fits ∧ root.face = .node .compilationUnit ∧ ∃ ts trivia,
      root.tokens = ts ++ [⟨.endOfFile, String.ofList trivia, "", ""⟩] ∧
      Lexical.tokens source.toList = (ts, trivia) ∧ leading trivia = (trivia, []) := by
  constructor
  · intro h
    obtain ⟨statements, trivia, ht, hl, hs, rfl⟩ := document_sound h
    exact ⟨fits_document hs, rfl, _, trivia, by simp [endOfFile], ht, hl⟩
  · rintro ⟨hfits, hface, ts, trivia, htokens, ht, hl⟩
    obtain ⟨cs, rfl⟩ := face_eq_node_iff.mp hface
    obtain ⟨statements, e, rfl, -, hs⟩ := children_of_compilationUnit hfits
    have htokens : tokensAll statements ++ [e] =
        ts ++ [⟨.endOfFile, String.ofList trivia, "", ""⟩] := by simpa using htokens
    obtain ⟨rfl, he⟩ := List.append_inj' htokens rfl
    rw [List.singleton_inj.mp he]
    exact document_of_tokens hs ht hl

end Grammar

/-! ## Other tokens in the place of a list -/

namespace Lexical

/-- The tokens of a text stay its tokens when a list in parentheses makes way for tokens that are
cut off before anything. -/
theorem tokens_splice {source : String} {ts list us new : List Token} {opening : Token}
    {trivia : List Char}
    (h : tokens source.toList = (ts ++ (opening :: list) ++ us, trivia))
    (hcr : CrLf source.toList) (hne : ts ≠ []) (hkind : opening.kind = .openParen)
    (hnew : ∀ x, Settled (.bare .openParen "(" :: new) x) :
    tokens ((Token.wholeAll (ts ++ (.bare .openParen "(" :: new) ++ us)).toList ++ trivia) =
      (ts ++ (.bare .openParen "(" :: new) ++ us, trivia) := by
  obtain ⟨hsource, hsettled, hend⟩ := tokens_eq.mp h
  obtain ⟨hfront, hus⟩ := settled_append.mp hsettled
  obtain ⟨hts, hopening, hlist⟩ := settled_append.mp hfront
  refine tokens_eq.mpr ⟨rfl, ?_, hend⟩
  refine settled_append.mpr ⟨settled_append.mpr ⟨?_, hnew _⟩, hus⟩
  have hparen := hts.before_paren hopening hkind (by simpa [hsource] using hcr) hne
    ((Token.wholeAll new).toList ++ ((Token.wholeAll us).toList ++ trivia))
  simpa using hparen

end Lexical

namespace Grammar

open CallFill.Tree CallFill.Lexical

/-! ## Another list in a call -/

/-- What stands behind the whole of a list in parentheses ends with the end of the file. -/
theorem exists_behind {left right list ts : List Token} {closing last : Token}
    (hne : closing ≠ last) (h : left ++ (list ++ [closing]) ++ right = ts ++ [last]) :
    ∃ us, right = us ++ [last] ∧ ts = left ++ (list ++ [closing]) ++ us := by
  obtain rfl | ⟨us, u, rfl⟩ := List.eq_nil_or_concat right
  · have h : left ++ list ++ [closing] = ts ++ [last] := by simpa using h
    obtain ⟨-, hlast⟩ := List.append_inj' h rfl
    exact absurd (List.singleton_inj.mp hlast) hne
  · have h : left ++ (list ++ [closing]) ++ us ++ [u] = ts ++ [last] := by simpa using h
    obtain ⟨hts, hlast⟩ := List.append_inj' h rfl
    exact ⟨us, by simp [List.singleton_inj.mp hlast], hts.symm⟩

/-- The tokens around the argument list of a call in a document. -/
theorem tokens_around_list {source : String} {call : Place} {callee old : Tree}
    (hd : document source = .ok call.root)
    (hfocus : call.focus = .node .invocation [callee, old]) :
    ∃ opening list us trivia, opening.kind = .openParen ∧ leading trivia = (trivia, []) ∧
      Place.tokensRight call.above = us ++ [⟨.endOfFile, String.ofList trivia, "", ""⟩] ∧
      Lexical.tokens source.toList =
        (Place.tokensLeft call.above ++ callee.tokens ++ (opening :: list) ++ us, trivia) := by
  obtain ⟨hfits, -, ts, trivia, htokens, ht, hl⟩ := document_iff.mp hd
  have hcall : (Tree.node .invocation [callee, old]).Fits := hfocus ▸ Place.fits_of_fillAll hfits
  obtain ⟨_, as, heq, -, has⟩ := children_of_invocation hcall
  obtain ⟨rfl, rfl⟩ : callee = _ ∧ old = .node .argumentList as := by simpa using heq
  obtain ⟨opening, closing, as, rfl, ho, hc, -⟩ := children_of_argumentList has
  have hne : closing ≠ ⟨.endOfFile, String.ofList trivia, "", ""⟩ := by
    rintro rfl
    cases hc
  have hroot : (Place.tokensLeft call.above ++ callee.tokens) ++
      (opening :: tokensAll as ++ [closing]) ++ Place.tokensRight call.above =
        ts ++ [⟨.endOfFile, String.ofList trivia, "", ""⟩] := by
    rw [← htokens, Place.root, Place.tokens_fillAll, hfocus]
    simp
  obtain ⟨us, hright, rfl⟩ := exists_behind hne hroot
  exact ⟨opening, _, us, trivia, ho, hl, hright, ht⟩

/-- A call in a document may get any list that is cut off as it is before anything. -/
theorem document_fill {source : String} {call : Place} {callee old list : Tree}
    (hd : document source = .ok call.root) (hcr : CrLf source.toList)
    (hfocus : call.focus = .node .invocation [callee, old])
    (hlist : FitsAs (· == .argumentList) list) {new : List Token}
    (hnew : list.tokens = .bare .openParen "(" :: new) (hsettled : ∀ x, Settled list.tokens x) :
    document (call.replace (.node .invocation [callee, list])).whole =
      .ok (call.replace (.node .invocation [callee, list])) := by
  obtain ⟨hfits, hface, -⟩ := document_iff.mp hd
  obtain ⟨opening, olds, us, trivia, ho, hl, hright, ht⟩ := tokens_around_list hd hfocus
  have hcall : (Tree.node .invocation [callee, old]).Fits := hfocus ▸ Place.fits_of_fillAll hfits
  obtain ⟨_, _, heq, hcallee, -⟩ := children_of_invocation hcall
  obtain ⟨rfl, -⟩ : callee = _ ∧ old = _ := by simpa using heq
  have hsame : (Tree.node .invocation [callee, list]).face = call.focus.face := by
    rw [hfocus]
    rfl
  have htokens : (call.replace (.node .invocation [callee, list])).tokens =
      Place.tokensLeft call.above ++ callee.tokens ++ list.tokens ++ us ++
        [⟨.endOfFile, String.ofList trivia, "", ""⟩] := by
    rw [Place.replace, Place.tokens_fillAll, hright]
    simp
  have hend : Token.wholeAll [⟨.endOfFile, String.ofList trivia, "", ""⟩] =
      String.ofList trivia := by
    simp [Token.whole]
  refine document_iff.mpr ⟨Place.fits_fillAll hfits hsame (fits_invocation hcallee hlist), ?_, _,
    trivia, htokens, ?_, hl⟩
  · exact (Place.face_fillAll call.above hsame).trans hface
  · -- a callee has a token, so there is one that the parenthesis stands behind
    have hne : Place.tokensLeft call.above ++ callee.tokens ≠ [] := by
      simp [hcallee.fits.tokens_ne_nil]
    rw [Tree.whole, htokens, Token.wholeAll_append _ [_], hend, String.toList_append,
      String.toList_ofList, hnew]
    exact tokens_splice ht hcr hne ho (hnew ▸ hsettled)

end Grammar

namespace Offer.Rewrite

open CallFill.Tree

/-- Any call of a document can be filled, and the text of the new document is read as its tree,
when no carriage return stands alone in the old text, no type name holds a comment and the
wildcard is made of identifiers. -/
theorem apply_rereads {source : String} {d : Document} {call : Place}
    (hd : Grammar.document source = .ok d.root) (hcr : Lexical.CrLf source.toList)
    (hroot : call.root = d.root) (hkind : call.isKind .invocation) (title : String) (m : Method)
    (hm : ∀ type ∈ m.parameterTypes, Text.mentions type "//" = false) (s : Settings)
    (hs : s.NamesWildcard) (stamp : Nat) :
    ∃ d', (ofMethod title d ⟨call, d.snapshot.stamp⟩ m s).apply false stamp = .ok d' ∧
      Grammar.document d'.text = .ok d'.root := by
  rw [← hroot] at hd
  obtain ⟨callee, as, hfocus, -, -, hlist⟩ := eq_call (Grammar.document_fits hd) hkind
  have hfits : FitsAs (· == .argumentList) (s.brokenList m.parameterTypes) :=
    .of_face (s.brokenList_fits _) (face_appendTrailing _ _) rfl
  refine ⟨_, apply_eq rfl hfocus hlist stamp, ?_⟩
  exact Grammar.document_fill hd hcr hfocus hfits (s.tokens_brokenList m.parameterTypes)
    (Settings.brokenList_settled hs hm)

theorem apply_rereads_notedCall :
    Grammar.document "a.b // note\n();" = .ok notedCall.root ∧ ∃ d',
      (ofMethod "fill" (.ofRoot "A.cs" notedCall.root 0) ⟨notedCall, 0⟩
        ⟨"I", "b", [⟨"x", "int"⟩]⟩ {}).apply false 1 = .ok d' ∧
        Grammar.document d'.text = .ok d'.root := by
  have hd : Grammar.document "a.b // note\n();" = .ok notedCall.root := rfl
  have hcr : Lexical.CrLf "a.b // note\n();".toList := by
    intro u v h
    have hmem : '\r' ∈ "a.b // note\n();".toList := by simp [h]
    exact absurd hmem (by decide)
  have hs : Settings.NamesWildcard {} :=
    ⟨Lexical.isIdentifier_iff.mpr (by decide +kernel),
      Lexical.isIdentifier_iff.mpr (by decide +kernel)⟩
  exact ⟨hd, apply_rereads (d := .ofRoot "A.cs" notedCall.root 0) hd hcr rfl rfl "fill"
    ⟨"I", "b", [⟨"x", "int"⟩]⟩ (by decide) {} hs 1⟩

end Offer.Rewrite

end CallFill
