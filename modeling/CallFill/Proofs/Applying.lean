import CallFill.Host.Scripted
import CallFill.Proofs.Candidates
import CallFill.Proofs.Selecting
import CallFill.Proofs.Serving

/-!
# Offered rewrites apply

The call of an offered rewrite was found in the tree that the host gave, and the rewrite holds a
document with that same tree: the document of the request if the host gave its tree, else its next
version.  So the stamps agree, the list that made the call a candidate is still there, and applying
the rewrite cannot fail.
-/

namespace CallFill

open CallFill.Text CallFill.Tree

namespace Place

/-- The text of the siblings to the right of a place. -/
def behind (p : Place) : String :=
  match p.above with
  | [] => ""
  | f :: _ => Token.wholeAll (tokensAll f.after)

theorem exists_argumentList? {call list : Place} (hlist : list.isKind .argumentList = true)
    (hparent : list.parent? = some call) : ∃ first, call.argumentList? = some first := by
  obtain ⟨cs, hfocus⟩ := isKind_iff.mp hlist
  have hmem : list ∈ call.children := mem_children.mpr ⟨by rw [hfocus, isNode], hparent⟩
  exact Option.isSome_iff_exists.mp (List.find?_isSome.mpr ⟨list, hmem, hlist⟩)

theorem parent?_argumentList? {call list : Place} (h : call.argumentList? = some list) :
    list.parent? = some call :=
  (mem_children.mp (List.mem_of_find?_eq_some h)).2

theorem whole_setChild (f : Frame) (t new : Tree) : ((f.fill t).setChild f.index new).whole =
    Token.wholeAll (tokensAll f.before.reverse) ++ new.whole ++
      Token.wholeAll (tokensAll f.after) := by
  rw [Frame.setChild_fill, Frame.fill, whole, tokens_node]
  simp [whole, String.append_assoc]

end Place

namespace Offer

/-- A candidate stands in the tree of the selected node and has a list to fill. -/
theorem candidateAt_call {n : Place} {c : Candidate} (h : candidateAt n = .ok c) :
    c.call.root = n.root ∧ ∃ list, c.call.argumentList? = some list := by
  rw [candidateAt] at h
  split at h
  · cases h
  next list hnearest =>
    split at h
    · cases h
    · split at h
      · cases h
      next call howner =>
        split at h
        · cases h
        · obtain rfl : _ = c := by simpa using h
          obtain ⟨hparent, -⟩ := Option.filter_eq_some_iff.mp howner
          have hlist : list.isKind .argumentList = true := by simpa using List.find?_some hnearest
          refine ⟨?_, Place.exists_argumentList? hlist hparent⟩
          exact (Place.root_of_parent? hparent).symm.trans
            (Place.root_of_mem_ancestors (List.mem_of_find?_eq_some hnearest))

/-- In a fitting tree the list is the one that was selected, and the call ends with it. -/
theorem candidateAt_list {n : Place} {c : Candidate} (hfits : n.root.Fits)
    (h : candidateAt n = .ok c) : c.call.argumentList? = some c.list ∧ c.list.behind = "" := by
  obtain ⟨b, rfl, -⟩ := exists_bareCall_of_candidateAt hfits h
  exact ⟨b.argumentList?_call, rfl⟩

namespace Rewrite

/-- The list of a call in a text makes way for the generated one, and a line break follows the
call. -/
def Splices (w : Rewrite) (list : Place) (source text : String) : Prop :=
  ∃ before after, Flanks source list.fullSpan before (list.behind ++ after) ∧
    text = before ++ "(" ++ ", ".intercalate
        ((w.parameterTypes.filterMap Grammar.namedType?).map fun t =>
          w.settings.matcherType ++ "." ++ w.settings.matcherMethod ++ "<" ++ t.whole ++ ">()") ++
      ")" ++ list.behind ++ w.settings.lineEnding.lineBreak ++ after

theorem whole_fill (s : Settings) (types : List String) (f : Frame) (t : Tree) :
    (fill s (f.fill t) f.index (s.wildcards types)).whole =
      Token.wholeAll (tokensAll f.before.reverse) ++ (s.wildcards types).whole ++
        Token.wholeAll (tokensAll f.after) ++ s.lineEnding.lineBreak := by
  have hwhole := Place.whole_setChild f t (s.wildcards types)
  have htokens : ((f.fill t).setChild f.index (s.wildcards types)).tokens ≠ [] := by
    intro hnil
    rw [whole, hnil, Settings.whole_wildcards] at hwhole
    simp at hwhole
  rw [fill, whole_appendTrailing _ htokens, hwhole]

/-- A rewrite of a call with a list, both in the tree of its document, can be applied. -/
theorem apply_splices {w : Rewrite} {list : Place}
    (hstamp : w.call.stamp = w.document.snapshot.stamp)
    (hlist : w.call.place.argumentList? = some list) (stamp : Nat) :
    ∃ d', w.apply false stamp = .ok d' ∧ d'.path = w.document.path ∧
      d'.version = w.document.version + 1 ∧
      w.Splices list w.call.place.root.whole d'.text := by
  have hparent := Place.parent?_argumentList? hlist
  obtain ⟨t, _ | ⟨f, fs⟩⟩ := list
  · cases hparent
  · obtain ⟨title, d, ⟨call, found⟩, types, s⟩ := w
    obtain rfl : (⟨f.fill t, fs⟩ : Place) = call := by simpa using hparent
    let filled := fill s (f.fill t) f.index (s.wildcards types)
    refine ⟨d.next ⟨Place.replace ⟨f.fill t, fs⟩ filled, stamp⟩, ?_, rfl, rfl,
      Token.wholeAll (Place.tokensLeft (f :: fs)), Token.wholeAll (Place.tokensRight fs), ?_, ?_⟩
    · rw [apply, if_neg (by decide), if_neg (by simpa using hstamp), hlist]
      rfl
    · have hflanks := Place.flanks ⟨t, f :: fs⟩
      rwa [Place.tokensRight, Token.wholeAll_append] at hflanks
    · rw [Document.text, Document.root, Document.next_snapshot, Place.whole_replace, whole_fill,
        Settings.whole_wildcards]
      simp only [Place.tokensLeft, Place.behind, Token.wholeAll_append, String.append_assoc]

end Rewrite

theorem mem_rewrites_compose {d : Document} {call : Located} {ms : List Method} {s : Settings}
    {a : Action} (h : Action.compose d call ms s = some a) {w : Rewrite} (hw : w ∈ a.rewrites) :
    w.document = d ∧ w.call = call ∧ w.settings = s := by
  match ms with
  | [] => cases h
  | [m] =>
    obtain rfl := Option.some.inj h
    obtain rfl := List.mem_singleton.mp hw
    exact ⟨rfl, rfl, rfl⟩
  | m :: m' :: ms =>
    obtain rfl := Option.some.inj h
    obtain ⟨m'', -, rfl⟩ := List.mem_map.mp hw
    exact ⟨rfl, rfl, rfl⟩

variable {σ : Type}

theorem check_call {c : Candidate} {b : Binder σ} {s : Settings} {run run' : Run σ} {f : Fillable}
    (h : (c.check b s).run run = (.ok f, run')) : f.call = c.call := by
  rw [run_check] at h
  split at h
  · cases h
  · split at h
    · cases h
    · split at h
      obtain ⟨hf, -⟩ := Prod.mk.inj h
      split at hf
      · cases hf
        rfl
      · cases hf

namespace Request

variable {s : Settings} {host : Host σ} {r : Request} {run run' : Run σ} {a : Action}

theorem compose_of_offerOverloads {root : HostRoot} {b : Binder σ} {call : Place}
    (h : (offerOverloads s r root b call).run.run run = (.ok (some a), run')) :
    ∃ ms, Action.compose (r.target root) ⟨call, root.treeStamp⟩ ms s = some a := by
  rw [run_offerOverloads] at h
  split at h
  · cases h
  · split at h
    next ms _ _ =>
      split at h
      · cases h
      next hcompose =>
        split at h
        · cases h
        · cases h
          exact ⟨ms, hcompose⟩

/-- An action is offered for the call that was found in the tree of the host. -/
theorem compose_of_offer (h : (offer s host r).run.run run = (.ok (some a), run')) :
    ∃ root c ms, (host.tree r.document run.host run.cancelled).answer = .ok root ∧
      candidate? root.place r.span = some c ∧
      Action.compose (r.target root) ⟨c.call, root.treeStamp⟩ ms s = some a := by
  rw [run_offer] at h
  split at h
  · cases h
  next root _ hask =>
    split at h
    · cases h
    next c hc =>
      rw [run_offerCandidate] at h
      split at h
      · cases h
      · split at h
        · cases h
        · split at h
          · cases h
          next hcheck =>
            obtain ⟨ms, hms⟩ := compose_of_offerOverloads h
            rw [check_call hcheck] at hms
            exact ⟨root, c, ms, congrArg Prod.fst hask, hc, hms⟩

/-- The document that is rewritten has the tree that the host gave. -/
theorem target_eq (r : Request) (root : HostRoot) :
    (r.target root).path = r.document.path ∧ (r.target root).snapshot.stamp = root.stamp ∧
      (r.target root).version + 1 =
        r.document.version + if root.stamp = r.document.snapshot.stamp then 1 else 2 := by
  rw [target]
  split
  next hstamp => exact ⟨rfl, hstamp.symm, rfl⟩
  · exact ⟨rfl, rfl, rfl⟩

/-- Every rewrite that is offered can be applied, unless cancelled, where the host gives the root of
a tree.  The list of the call that was found there is filled, in a later version of the document of
the request. -/
theorem serve_applicable (s : Settings) (host : Host σ) (r : Request) (run : Run σ)
    (htop : ∀ root, (host.tree r.document run.host run.cancelled).answer = .ok root →
      root.place.above = []) :
    ∃ offered, ((serve s host r).run run).1.2 = { r with actions := r.actions ++ offered } ∧
      ∀ a ∈ offered, ∀ w ∈ a.rewrites, ∃ root n c list,
        (host.tree r.document run.host run.cancelled).answer = .ok root ∧
        root.place.find? r.span = some n ∧ candidateAt n = .ok c ∧
        w.call.place = c.call ∧ w.settings = s ∧ c.call.argumentList? = some list ∧
        (∀ source, Grammar.document source = .ok root.place.focus ∨
            Grammar.expression source = .ok root.place.focus →
          list = c.list ∧ list.behind = "") ∧
        ∀ stamp, w.apply true stamp = .error .cancelled ∧
          ∃ d', w.apply false stamp = .ok d' ∧ d'.path = r.document.path ∧
            d'.version = r.document.version +
              (if root.stamp = r.document.snapshot.stamp then 1 else 2) ∧
            w.Splices list root.place.focus.whole d'.text := by
  rw [run_serve]
  split
  · exact ⟨[], by simp, nofun⟩
  · exact ⟨[], by simp, nofun⟩
  next a run' hoffer =>
    refine ⟨[a], rfl, ?_⟩
    intro a' ha w hw
    obtain rfl := List.mem_singleton.mp ha
    obtain ⟨root, c, ms, hask, hc, hcompose⟩ := compose_of_offer hoffer
    obtain ⟨hdocument, hcall, hsettings⟩ := mem_rewrites_compose hcompose hw
    obtain ⟨n, hn, hcandidate⟩ := candidate?_eq_some.mp hc
    obtain ⟨hroot, list, hlist⟩ := candidateAt_call hcandidate
    obtain ⟨hpath, hstamp, hversion⟩ := r.target_eq root
    have htop := htop root hask
    have hfocus : n.root = root.place.focus := by
      rw [Place.root_of_find? hn, Place.root, htop, Place.fillAll_nil]
    refine ⟨root, n, c, list, hask, hn, hcandidate, by rw [hcall], hsettings, hlist, ?_, ?_⟩
    · intro source hread
      have hfits : n.root.Fits := by
        rw [hfocus]
        exact hread.elim Grammar.document_fits Grammar.expression_fits
      obtain ⟨hselected, hbehind⟩ := candidateAt_list hfits hcandidate
      obtain rfl : c.list = list := Option.some.inj (hselected.symm.trans hlist)
      exact ⟨rfl, hbehind⟩
    · intro stamp
      refine ⟨rfl, ?_⟩
      have hstamps : w.call.stamp = w.document.snapshot.stamp := by
        rw [hcall, hdocument, hstamp, root.treeStamp_eq htop]
      obtain ⟨d', happly, hpath', hversion', hsplices⟩ :=
        Rewrite.apply_splices hstamps (by rw [hcall]; exact hlist) stamp
      refine ⟨d', happly, ?_, ?_, ?_⟩
      · rw [hpath', hdocument, hpath]
      · rw [hversion', hdocument, hversion]
      · rwa [hcall, hroot, hfocus] at hsplices

/-- A request at version 4 of an empty document. -/
def emptyRequest : Request :=
  ⟨⟨"A.cs", 4, ⟨.node .compilationUnit [Grammar.endOfFile ""], 7⟩⟩, .caret 4, []⟩

/-- A call in another tree. -/
def otherCall : Place :=
  ⟨.invocation (.memberAccess (.identifierName "x") (.identifierName "M")) (.argumentList []),
    [⟨.expressionStatement, [], [.leaf .semicolon ";"]⟩,
      ⟨.compilationUnit, [], [Grammar.endOfFile ""]⟩]⟩

/-- A host that gives the other tree whatever the document. -/
def otherHost : Host (List Asked) :=
  Script.host
    { scope := .empty
      fixed := some ⟨some ⟨"I", .interfaceType, []⟩, .ambiguous [⟨"I", "M", [⟨"a", "int"⟩]⟩],
        ["NSubstitute"]⟩
      otherTree := some ⟨otherCall.root, 9⟩
      failsTree := false
      failsBinder := false
      cancelAt := none }

theorem serve_applicable_otherTree : Grammar.document "x.M();" = .ok otherCall.root ∧ ∃ a w d',
    a ∈ ((serve {} otherHost emptyRequest).run ⟨[], false⟩).1.2.actions ∧ w ∈ a.rewrites ∧
      w.apply false 11 = .ok d' ∧ d'.path = "A.cs" ∧ d'.version = 6 := by
  obtain ⟨offered, hserve, happlies⟩ :=
    serve_applicable {} otherHost emptyRequest ⟨[], false⟩ (by rintro root hroot; cases hroot; rfl)
  have hsome : ((serve {} otherHost emptyRequest).run ⟨[], false⟩).1.2.actions.flatMap
      Action.rewrites ≠ [] := by decide +kernel
  obtain ⟨w, hw⟩ := List.exists_mem_of_ne_nil _ hsome
  obtain ⟨a, ha, hw⟩ := List.mem_flatMap.mp hw
  have hoffered : a ∈ offered := by
    rw [hserve] at ha
    exact ha
  obtain ⟨root, _, _, _, hroot, -, -, -, -, -, -, happly⟩ := happlies a hoffered w hw
  obtain rfl : .ofSnapshot ⟨otherCall.root, 9⟩ = root := Except.ok.inj hroot
  obtain ⟨-, d', hd', hpath, hversion, -⟩ := happly 11
  exact ⟨rfl, a, w, d', ha, hw, hd', hpath, hversion⟩

end Request
end Offer

end CallFill
