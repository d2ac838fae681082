import Mathlib.Data.Option.Basic
import CallFill.Proofs.Candidates
import CallFill.Proofs.Declarations
import CallFill.Proofs.Selecting
import CallFill.Proofs.Serving
import CallFill.Proofs.TypeNames

/-!
# What is offered from declarations

A host that binds in a scope never fails while nobody cancels, so a request ends with at most one
action.  When the scope comes from declarations, the action is settled by them: the selection must
have a call whose receiver is an interface, a referenced library must mention the mocking library,
and the overloads are the methods declared for that interface under the called name.
-/

namespace CallFill

open Text

/-- A call without arguments resolves if one method alone takes no parameters; otherwise the whole
group is left behind. -/
theorem Resolution.candidates_ofGroup (group : List Method) :
    (ofGroup group 0).candidates =
      if group.countP (·.parameters = []) = 1 then [] else group := by
  have hcount : group.countP (·.parameters = []) =
      (group.filter (·.parameters.length == 0)).length := by
    rw [List.countP_eq_length_filter]
    congr 2
    funext m
    cases m.parameters <;> rfl
  rw [hcount, ofGroup]
  cases group with
  | nil => rfl
  | cons m ms =>
    simp only [List.isEmpty_cons, Bool.false_eq_true, if_false]
    generalize (m :: ms).filter (·.parameters.length == 0) = fitting
    match fitting with
    | [] => rfl
    | [only] => rfl
    | _ :: _ :: _ => simp

/-- A call of a member is bound by the type of its receiver and its name. -/
theorem Scope.target?_bareCall {scope : Scope} {b : Offer.BareCall} {type : TypeSymbol}
    {name : String} (htype : scope.typeOf b.receiver = some type)
    (hname : b.calleePlace.memberName? = some name) :
    scope.target? b.call = some (type, name) := by
  have hkind : b.call.isKind .invocation = true := rfl
  simp [target?, hkind, htype, hname, guard]

namespace Offer

/-- The methods that a call without arguments may have meant, out of all those of its name.  A
call that resolves leaves none. -/
def meant (source : CandidateSource) (group : List Method) : List Method :=
  match source with
  | .overloadFailure => if group.countP (·.parameters = []) = 1 then [] else group
  | .memberGroup => group

/-! ## A host that binds in a scope -/

section Scope

variable {σ : Type} {s : Settings} {scope : Scope} {r : Request} {host : σ}

/-- The overloads of a call in a scope. -/
def scopeOverloads (scope : Scope) (call : Place) : CandidateSource → List Method
  | .overloadFailure => (scope.resolve call).candidates
  | .memberGroup => scope.memberGroup call

theorem run_overloads_binder (call : Place) (source : CandidateSource) (host : σ) :
    (overloads scope.binder call source).run ⟨host, false⟩ =
      (scopeOverloads scope call source, ⟨host, false⟩) := by
  cases source <;> rfl

theorem run_tree_host (d : Document) (host : σ) :
    (Query.ask (scope.host.tree d)).run ⟨host, false⟩ =
      (.ok (.ofSnapshot d.snapshot), ⟨host, false⟩) := rfl

theorem run_binder_host (d : Document) (host : σ) :
    (Query.ask (scope.host.binder d)).run ⟨host, false⟩ = (.ok scope.binder, ⟨host, false⟩) := rfl

theorem run_typeOf_binder (e : Place) (host : σ) :
    (Query.ask (scope.binder.typeOf e)).run ⟨host, false⟩ = (scope.typeOf e, ⟨host, false⟩) := rfl

theorem run_references_binder (host : σ) :
    (Query.ask scope.binder.references).run ⟨host, false⟩ =
      (scope.references, ⟨host, false⟩) := rfl

theorem Request.target_ofSnapshot (r : Request) :
    r.target (.ofSnapshot r.document.snapshot) = r.document := if_pos rfl

/-- What a scope has to offer for a request. -/
def scopeOffer (s : Settings) (scope : Scope) (r : Request) : Option Action := do
  let c ← candidate? (.ofRoot r.document.root) r.span
  let type ← scope.typeOf c.receiver
  guard (type.isInterface ∧ scope.references.any (Text.mentions · s.library))
  Action.compose r.document ⟨c.call, r.document.snapshot.stamp⟩
    (scopeOverloads scope c.call s.candidateSource) s

namespace Request

theorem run_offerOverloads_host (call : Place) (host : σ) :
    (offerOverloads s r (.ofSnapshot r.document.snapshot) scope.binder call).run.run
      ⟨host, false⟩ = (.ok (Action.compose r.document ⟨call, r.document.snapshot.stamp⟩
        (scopeOverloads scope call s.candidateSource) s), ⟨host, false⟩) := by
  rw [run_offerOverloads, run_overloads_binder, if_neg (by simp), target_ofSnapshot]
  dsimp only [HostRoot.ofSnapshot]
  cases Action.compose r.document ⟨call, r.document.snapshot.stamp⟩
    (scopeOverloads scope call s.candidateSource) s <;> rfl

theorem run_offer_host (host : σ) : (offer s scope.host r).run.run ⟨host, false⟩ =
    (.ok (scopeOffer s scope r), ⟨host, false⟩) := by
  rw [run_offer, run_tree_host, scopeOffer]
  have hplace : (HostRoot.ofSnapshot r.document.snapshot).place = .ofRoot r.document.root := rfl
  dsimp only
  rw [hplace]
  cases candidate? (.ofRoot r.document.root) r.span with
  | none => rfl
  | some c =>
    dsimp only
    -- each cause to offer nothing ends both sides alike
    rw [run_offerCandidate, if_neg (by simp), run_binder_host]
    dsimp only [Option.bind_eq_bind, Option.bind_some]
    rw [run_check, run_typeOf_binder]
    cases scope.typeOf c.receiver with
    | none => rfl
    | some type =>
      dsimp only [Option.bind_some]
      rw [run_references_binder]
      cases type.isInterface with
      | false => rfl
      | true =>
        dsimp only
        cases scope.references.any (Text.mentions · s.library) with
        | false => rfl
        | true => exact run_offerOverloads_host c.call host

theorem run_serve_host (host : σ) : (serve s scope.host r).run ⟨host, false⟩ =
    ((.ok (), { r with actions := r.actions ++ (scopeOffer s scope r).toList }),
      ⟨host, false⟩) := by
  rw [run_serve, run_offer_host]
  cases scopeOffer s scope r with
  | none => simp
  | some a => rfl

end Request

theorem scopeOverloads_bareCall {b : BareCall} {type : TypeSymbol} {name : String}
    (htype : scope.typeOf b.receiver = some type) (hname : b.calleePlace.memberName? = some name)
    (source : CandidateSource) :
    scopeOverloads scope b.call source = meant source (scope.methodsOf type name) := by
  have hgroup : scope.memberGroup b.call = scope.methodsOf type name := by
    rw [Scope.memberGroup, Scope.target?_bareCall htype hname]
  have harity : Scope.arity b.call = 0 := rfl
  cases source with
  | overloadFailure =>
    rw [scopeOverloads, Scope.resolve_eq, hgroup, harity, Resolution.candidates_ofGroup]
    rfl
  | memberGroup => exact hgroup

end Scope

/-! ## Declared scopes -/

/-- A selection in a document has a call of a member called `name`, with nothing in its
parentheses, on an interface, and a library that a project of these declarations references
mentions the mocking library. -/
structure Qualifies (ds : List Declaration) (s : Settings) (d : Document) (span : Span)
    (c : Candidate) (type : TypeSymbol) (name : String) : Prop where
  found : ∃ n, (Place.ofRoot d.root).find? span = some n ∧ candidateAt n = .ok c
  typeOf_receiver : (Scope.ofDeclarations ds).typeOf c.receiver = some type
  kind_eq : type.kind = .interfaceType
  library : ∃ l ∈ ds.filterMap Declaration.reference?, s.library.toList <:+: l.toList
  memberName : c.call.memberAccess?.bind (·.memberName?) = some name

variable {path source : String} {stamp : Nat} {d : Document} {ds : List Declaration}
  {s : Settings} {span : Span} {c : Candidate} {type : TypeSymbol} {name : String}

theorem document_read (hd : Document.read path source stamp = .ok d) :
    Grammar.document source = .ok d.root ∧ d.snapshot.stamp = stamp := by
  unfold Document.read at hd
  split at hd
  · cases hd
  next root hroot =>
    obtain rfl := Except.ok.inj hd
    exact ⟨hroot, rfl⟩

theorem exists_bareCall_of_found (hd : Grammar.document source = .ok d.root)
    (h : ∃ n, (Place.ofRoot d.root).find? span = some n ∧ candidateAt n = .ok c) :
    ∃ b : BareCall, c = b.candidate := by
  obtain ⟨n, hfind, hc⟩ := h
  have hfits : n.root.Fits := Place.root_of_find? hfind ▸ Grammar.document_fits hd
  obtain ⟨b, rfl, -⟩ := (candidateAt_eq_ok hfits).mp hc
  exact ⟨b, rfl⟩

/-- A selection that qualifies is offered an action for the declared overloads. -/
theorem scopeOffer_of_qualifies (hd : Grammar.document source = .ok d.root)
    (h : Qualifies ds s d span c type name) (actions : List Action) :
    scopeOffer s (.ofDeclarations ds) ⟨d, span, actions⟩ =
      Action.compose d ⟨c.call, d.snapshot.stamp⟩
        (meant s.candidateSource (Declaration.overloads ds type name)) s := by
  obtain ⟨b, rfl⟩ := exists_bareCall_of_found hd h.found
  have hmem := Scope.mem_types_of_typeOf h.typeOf_receiver
  have hname : b.calleePlace.memberName? = some name := by
    simpa [BareCall.candidate] using h.memberName
  have hfound : candidate? (Place.ofRoot d.root) span = some b.candidate :=
    candidate?_eq_some.mpr h.found
  have hlibrary : (Scope.ofDeclarations ds).references.any (Text.mentions · s.library) = true := by
    rw [Scope.references_ofDeclarations, List.any_eq_true]
    exact h.library.imp fun l hl => hl.imp_right Text.mentions_iff.mpr
  have hkind : type.isInterface = true := by simp [TypeSymbol.isInterface, h.kind_eq]
  rw [scopeOffer, hfound]
  dsimp only [Option.bind_eq_bind, Option.bind_some]
  rw [h.typeOf_receiver]
  dsimp only [Option.bind_some]
  rw [hkind, hlibrary, BareCall.candidate,
    scopeOverloads_bareCall h.typeOf_receiver hname, Scope.methodsOf_ofDeclarations hmem]
  rfl

/-- Whatever is offered qualifies. -/
theorem exists_qualifies_of_scopeOffer (hd : Grammar.document source = .ok d.root)
    {actions : List Action} {a : Action}
    (h : scopeOffer s (.ofDeclarations ds) ⟨d, span, actions⟩ = some a) :
    ∃ c type name, Qualifies ds s d span c type name := by
  obtain ⟨c, hc, h⟩ := Option.bind_eq_some_iff.mp h
  obtain ⟨type, htype, h⟩ := Option.bind_eq_some_iff.mp h
  obtain ⟨_, hguard, -⟩ := Option.bind_eq_some_iff.mp h
  obtain ⟨hkind, hlibrary⟩ := (Option.guard_eq_some' _).mp hguard
  have hfound := candidate?_eq_some.mp hc
  obtain ⟨b, rfl⟩ := exists_bareCall_of_found hd hfound
  obtain ⟨i, -, -, hname⟩ := b.memberName?_calleePlace
  rw [Scope.references_ofDeclarations, List.any_eq_true] at hlibrary
  refine ⟨b.candidate, type, i.text, hfound, htype, by simpa [TypeSymbol.isInterface] using hkind,
    hlibrary.imp fun l hl => hl.imp_right Text.mentions_iff.mp, ?_⟩
  simpa [BareCall.candidate] using hname

/-- A selection of a document is offered one action if it qualifies and overloads are declared for
the call, and none otherwise.  The action is a rewrite for the only overload, or a group with one
rewrite for each, in the order of their declarations and under their labels. -/
theorem serve_declared (hd : Document.read path source stamp = .ok d) (ds : List Declaration)
    (s : Settings) (span : Span) (actions : List Action) {σ : Type} (host : σ) :
    ∃ offered : List Action,
      (Request.serve s (Scope.ofDeclarations ds).host ⟨d, span, actions⟩).run ⟨host, false⟩ =
        ((.ok (), ⟨d, span, actions ++ offered⟩), ⟨host, false⟩) ∧
      (∀ c type name, Qualifies ds s d span c type name →
        ∀ ms, ms = meant s.candidateSource (Declaration.overloads ds type name) → ms ≠ [] →
          ∃ a, offered = [a] ∧
            (∀ m, ms = [m] → a = .rewrite ⟨s.title, d, ⟨c.call, stamp⟩, m.parameterTypes, s⟩) ∧
            (2 ≤ ms.length → a = .group s.title (ms.map fun m =>
              ⟨label m s.labelLimit, d, ⟨c.call, stamp⟩, m.parameterTypes, s⟩))) ∧
      ((∀ c type name, Qualifies ds s d span c type name →
        meant s.candidateSource (Declaration.overloads ds type name) = []) → offered = []) := by
  obtain ⟨hroot, rfl⟩ := document_read hd
  refine ⟨_, Request.run_serve_host host, fun c type name hq ms hms hne => ?_, fun hnone => ?_⟩
  · rw [scopeOffer_of_qualifies hroot hq actions, ← hms]
    match ms, hne with
    | [m], _ => exact ⟨_, rfl, fun m' hm => by cases hm; rfl, nofun⟩
    | m :: m' :: ms, _ => exact ⟨_, rfl, nofun, fun _ => rfl⟩
  · cases hoffer : scopeOffer s (.ofDeclarations ds) ⟨d, span, actions⟩ with
    | none => rfl
    | some a =>
      obtain ⟨c, type, name, hq⟩ := exists_qualifies_of_scopeOffer hroot hoffer
      rw [scopeOffer_of_qualifies hroot hq actions, hnone c type name hq] at hoffer
      cases hoffer

/-- A call of an overloaded method. -/
def overloadedCall : Place :=
  ⟨.invocation (.memberAccess (.identifierName "x") (.identifierName "M")) (.argumentList []),
    [⟨.expressionStatement, [], [.leaf .semicolon ";"]⟩,
      ⟨.compilationUnit, [], [Grammar.endOfFile ""]⟩]⟩

/-- One overload is declared before its type and by the simple name. -/
def overloadedDeclarations : List Declaration :=
  [.method ⟨"I", "M", [⟨"a", "int"⟩]⟩, .type "N.I" .interfaceType, .localVariable "x" "N.I",
    .method ⟨"N.I", "M", [⟨"a", "int"⟩, ⟨"b", "bool"⟩]⟩, .reference "NSubstitute, Version=5"]

theorem serve_declared_overloadedCall :
    Document.read "A.cs" "x.M();" 7 = .ok (.ofRoot "A.cs" overloadedCall.root 7) ∧
      ∃ r a, (Request.serve {} (Scope.ofDeclarations overloadedDeclarations).host
          ⟨.ofRoot "A.cs" overloadedCall.root 7, .caret 4, []⟩).run ⟨(), false⟩ =
            ((.ok (), r), ⟨(), false⟩) ∧
        r.actions = [a] ∧
        a.rewrites.map (·.parameterTypes) = [["int"], ["int", "bool"]] := by
  have hd : Document.read "A.cs" "x.M();" 7 = .ok (.ofRoot "A.cs" overloadedCall.root 7) := rfl
  obtain ⟨offered, hserve, hsome, -⟩ :=
    serve_declared hd overloadedDeclarations {} (.caret 4) [] ()
  have hreference : "NSubstitute, Version=5" ∈
      overloadedDeclarations.filterMap Declaration.reference? := by
    simp [overloadedDeclarations, Declaration.reference?]
  obtain ⟨c, hq⟩ : ∃ c, Qualifies overloadedDeclarations {}
      (.ofRoot "A.cs" overloadedCall.root 7) (.caret 4) c ⟨"I", .interfaceType, ["N"]⟩ "M" :=
    ⟨_, ⟨_, rfl, rfl⟩, by decide +kernel, rfl, ⟨_, hreference, by decide +kernel⟩,
      by decide +kernel⟩
  have hms : meant CandidateSource.overloadFailure (Declaration.overloads overloadedDeclarations
      ⟨"I", .interfaceType, ["N"]⟩ "M") =
        [⟨"N.I", "M", [⟨"a", "int"⟩]⟩, ⟨"N.I", "M", [⟨"a", "int"⟩, ⟨"b", "bool"⟩]⟩] := by
    decide +kernel
  obtain ⟨a, rfl, -, hgroup⟩ := hsome _ _ _ hq _ hms.symm (by simp)
  refine ⟨hd, _, a, hserve, rfl, ?_⟩
  rw [hgroup (by simp)]
  rfl

end Offer

end CallFill
