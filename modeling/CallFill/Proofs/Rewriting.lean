import CallFill.Offer.Rewrite
import CallFill.Proofs.Around
import CallFill.Proofs.Generated
import CallFill.Proofs.Lossless
import CallFill.Proofs.Shape

/-!
# What a rewrite changes

A rewrite puts a generated argument list, ended by a line break, in the place of the argument
list of one call.  Here is what becomes of the text and of the tree of the document around it.
-/

namespace CallFill

/-- What a text has before and after the bytes of a span. -/
def Text.Flanks (text : String) (s : Text.Span) (before after : String) : Prop :=
  ∃ middle, text = before ++ middle ++ after ∧ before.utf8ByteSize = s.start ∧
    before.utf8ByteSize + middle.utf8ByteSize = s.stop

theorem Place.flanks (p : Place) : Text.Flanks p.root.whole p.fullSpan
    (Token.wholeAll (tokensLeft p.above)) (Token.wholeAll (tokensRight p.above)) :=
  ⟨p.focus.whole, whole_root p, (start_eq p).symm, by rw [fullSpan, start_eq, width_eq_whole]⟩

/-! ## A filled call -/

namespace Offer.Rewrite

open CallFill.Tree CallFill.Grammar

theorem fill_eq (s : Settings) (callee list : Tree) (types : List String) :
    fill s (.node .invocation [callee, list]) 1 (s.wildcards types) =
      .node .invocation [callee, s.brokenList types] := by
  rw [fill, setChild]
  refine appendTrailing_concat _ _ [callee] ?_
  simp [Settings.tokens_wildcards]

/-- The place of the second child of a call. -/
def listPlace (callee list : Tree) (above : List Frame) : Place :=
  ⟨list, ⟨.invocation, [callee], []⟩ :: above⟩

theorem root_listPlace {call : Place} {callee list : Tree}
    (h : call.focus = .node .invocation [callee, list]) :
    (listPlace callee list call.above).root = call.root := by
  rw [Place.root, Place.root, h]
  rfl

/-- A call in a fitting tree calls an expression with an argument list. -/
theorem eq_call {call : Place} (hfits : call.root.Fits) (hkind : call.isKind .invocation) :
    ∃ callee as, call.focus = .node .invocation [callee, .node .argumentList as] ∧
      FitsAs NodeKind.isExpr callee ∧ (Tree.node .argumentList as).Fits ∧
      call.argumentList? = some (listPlace callee (.node .argumentList as) call.above) := by
  obtain ⟨t, above⟩ := call
  have ht : t.Fits := Place.fits_of_fillAll hfits
  cases t with
  | token t => simp [Place.isKind, Place.nodeKind?] at hkind
  | node k cs =>
      obtain rfl : k = .invocation := by simpa [Place.isKind, Place.nodeKind?] using hkind
      obtain ⟨callee, as, rfl, hcallee, has⟩ := children_of_invocation ht
      refine ⟨callee, as, rfl, hcallee, has, ?_⟩
      obtain ⟨k, cs, rfl, hk⟩ := hcallee.eq_node
      have hne : k ≠ .argumentList := by rintro rfl; cases hk
      simp [Place.argumentList?, Place.child?, Place.children, Place.childrenFrom, isNode,
        Place.isKind, Place.nodeKind?, hne, listPlace]

/-- What a rewrite of such a call yields. -/
theorem apply_eq {r : Rewrite} {callee list : Tree}
    (hstamp : r.call.stamp = r.document.snapshot.stamp)
    (hfocus : r.call.place.focus = .node .invocation [callee, list])
    (hlist : r.call.place.argumentList? = some (listPlace callee list r.call.place.above))
    (stamp : Nat) :
    r.apply false stamp = .ok (r.document.next ⟨r.call.place.replace
      (.node .invocation [callee, r.settings.brokenList r.parameterTypes]), stamp⟩) := by
  have hfill := fill_eq r.settings callee list r.parameterTypes
  rw [← hfocus] at hfill
  rw [apply, if_neg (by decide), if_neg (by simpa using hstamp), hlist]
  simp only [Place.index, listPlace, Frame.index]
  exact congrArg (fun t => Except.ok (r.document.next ⟨r.call.place.replace t, stamp⟩)) hfill

/-- The text on either side of the list, the version, and every subtree that is neither above
the call nor in the list stay; the list and its trivia make way for the generated list. -/
theorem apply_effect {source : String} {d : Document} {call : Place}
    (hd : Grammar.document source = .ok d.root) (hroot : call.root = d.root)
    (hkind : call.isKind .invocation) (title : String) (m : Method) (s : Settings)
    (stamp : Nat) :
    ∃ list d', call.argumentList? = some list ∧
      (ofMethod title d ⟨call, d.snapshot.stamp⟩ m s).apply false stamp = .ok d' ∧
      d'.path = d.path ∧ d'.version = d.version + 1 ∧
      (∃ before after, Text.Flanks d.text list.fullSpan before after ∧
        d'.text = before ++ "(" ++ ", ".intercalate
            ((m.parameterTypes.filterMap Grammar.namedType?).map fun t =>
              s.matcherType ++ "." ++ s.matcherMethod ++ "<" ++ t.whole ++ ">()") ++
          ")" ++ s.lineEnding.lineBreak ++ after) ∧
      (∃ filled, d'.root = call.replace filled) ∧
      ∀ is, ¬ is <+: call.path → ¬ list.path <+: is → d'.root.at? is = d.root.at? is := by
  have hfits : call.root.Fits := hroot ▸ Grammar.document_fits hd
  obtain ⟨callee, as, hfocus, -, -, hlist⟩ := eq_call hfits hkind
  let list := listPlace callee (.node .argumentList as) call.above
  have hlistroot : list.root = d.root := (root_listPlace hfocus).trans hroot
  refine ⟨list, d.next ⟨list.replace (s.brokenList m.parameterTypes), stamp⟩, hlist, ?_, rfl, rfl,
    ?_, ⟨.node .invocation [callee, s.brokenList m.parameterTypes], rfl⟩, ?_⟩
  · exact apply_eq rfl hfocus hlist stamp
  · refine ⟨_, _, hlistroot ▸ list.flanks, ?_⟩
    have hwhole := Place.whole_replace list (s.brokenList m.parameterTypes)
    rw [Settings.whole_brokenList, Settings.whole_wildcards] at hwhole
    rw [Document.text, Document.root, Document.next_snapshot]
    simpa only [String.append_assoc] using hwhole
  · intro is hup hdown
    have hpath : list.path = call.path ++ [1] := Place.pathOf_cons _ _
    have hup' : ¬ is <+: list.path := by
      intro h
      rcases List.prefix_concat_iff.mp (hpath ▸ h) with h | h
      · exact hdown ((hpath.trans h.symm) ▸ List.prefix_rfl)
      · exact hup h
    rw [← hlistroot]
    exact Place.at?_fillAll_of_parting list.above _ _ hup' hdown

/-- The call of a document with a comment in front of its parenthesis. -/
def notedCall : Place :=
  ⟨.invocation (.node .memberAccess [.identifierName "a", .leaf .dot ".",
      .node .identifierName [.token ⟨.identifier, "", "b", " // note\n"⟩]]) (.argumentList []),
    [⟨.expressionStatement, [], [.leaf .semicolon ";"]⟩,
      ⟨.compilationUnit, [], [Grammar.endOfFile ""]⟩]⟩

theorem apply_effect_notedCall :
    Grammar.document "a.b // note\n();" = .ok notedCall.root ∧ ∃ d',
      (ofMethod "fill" (.ofRoot "A.cs" notedCall.root 0) ⟨notedCall, 0⟩
        ⟨"I", "b", [⟨"x", "int"⟩]⟩ {}).apply false 1 = .ok d' ∧ d'.version = 1 := by
  have hd : Grammar.document "a.b // note\n();" = .ok notedCall.root := rfl
  obtain ⟨-, d', -, happly, -, hversion, -⟩ :=
    apply_effect (d := .ofRoot "A.cs" notedCall.root 0) hd rfl rfl "fill"
      ⟨"I", "b", [⟨"x", "int"⟩]⟩ {} 1
  exact ⟨hd, d', happly, hversion⟩

end Offer.Rewrite

end CallFill
