import CallFill.Offer.Candidate
import CallFill.Proofs.Rewriting
import CallFill.Proofs.Roles

/-!
# Calls with nothing in their parentheses

In a fitting tree a candidate is a call of a member whose list holds its two parentheses and
nothing else.  So the parts of a candidate are known, and a place has one exactly when the nearest
list of arguments at or above it is that of such a call.
-/

namespace CallFill.Offer

open CallFill.Tree CallFill.Offer.Rewrite

/-- The parts of a call of a member with nothing in its parentheses. -/
structure BareCall where
  target : Tree
  dot : Token
  name : Tree
  opening : Token
  closing : Token
  above : List Frame
  target_fits : FitsAs NodeKind.isExpr target
  dot_kind : dot.kind = .dot
  name_fits : FitsAs NodeKind.isSimpleName name
  opening_kind : opening.kind = .openParen
  closing_kind : closing.kind = .closeParen

namespace BareCall

variable (b : BareCall)

def access : Tree := .node .memberAccess [b.target, .token b.dot, b.name]

def list : Tree := .node .argumentList [.token b.opening, .token b.closing]

def call : Place := ⟨.node .invocation [b.access, b.list], b.above⟩

def listPlace : Place := Rewrite.listPlace b.access b.list b.above

def calleePlace : Place := ⟨b.access, ⟨.invocation, [], [b.list]⟩ :: b.above⟩

def receiver : Place :=
  ⟨b.target, ⟨.memberAccess, [], [.token b.dot, b.name]⟩ :: ⟨.invocation, [], [b.list]⟩ ::
    b.above⟩

def namePlace : Place :=
  ⟨b.name, ⟨.memberAccess, [.token b.dot, b.target], []⟩ :: ⟨.invocation, [], [b.list]⟩ ::
    b.above⟩

def candidate : Candidate := ⟨b.call, b.listPlace, b.receiver⟩

/-! ## Roles -/

@[simp] theorem children_call : b.call.children = [b.calleePlace, b.listPlace] := rfl

theorem children_calleePlace : b.calleePlace.children = [b.receiver, b.namePlace] := by
  obtain ⟨j, cs, ht, -⟩ := b.target_fits.eq_node
  obtain ⟨k, ds, hn, -⟩ := b.name_fits.eq_node
  simp [Place.children, calleePlace, access, Place.childrenFrom, receiver, namePlace, ht, hn,
    isNode]

@[simp] theorem callee?_call : b.call.callee? = some b.calleePlace := rfl

@[simp] theorem argumentList?_call : b.call.argumentList? = some b.listPlace := rfl

@[simp] theorem memberAccess?_call : b.call.memberAccess? = some b.calleePlace := rfl

@[simp] theorem arguments_listPlace : b.listPlace.arguments = [] := rfl

@[simp] theorem parent?_listPlace : b.listPlace.parent? = some b.call := rfl

@[simp] theorem owner?_listPlace : b.listPlace.owner? = some b.call := rfl

@[simp] theorem receiver?_calleePlace : b.calleePlace.receiver? = some b.receiver := by
  rw [Place.receiver?, children_calleePlace]
  rfl

@[simp] theorem member?_calleePlace : b.calleePlace.member? = some b.namePlace := by
  rw [Place.member?, children_calleePlace]
  rfl

/-- The name of the member is its identifier. -/
theorem memberName?_calleePlace : ∃ i : Token, i ∈ b.name.tokens ∧ i.kind = .identifier ∧
    b.calleePlace.memberName? = some i.text := by
  obtain ⟨i, hmem, hi, htoken⟩ := Place.exists_childToken (p := b.namePlace) b.name_fits
  exact ⟨i, hmem, hi, Place.memberName?_of_childToken? b.member?_calleePlace htoken⟩

@[simp] theorem root_listPlace : b.listPlace.root = b.call.root := rfl

theorem eq_of_listPlace_eq {b b' : BareCall} (h : b.listPlace = b'.listPlace) : b = b' := by
  cases b
  cases b'
  simp only [listPlace, Rewrite.listPlace, list, access, Place.mk.injEq, node.injEq, true_and,
    List.cons.injEq, token.injEq, Frame.mk.injEq, and_true] at h
  obtain ⟨⟨rfl, rfl⟩, ⟨rfl, rfl, rfl⟩, rfl⟩ := h
  rfl

end BareCall

/-! ## When a place has a candidate -/

/-- A list that has no arguments holds its parentheses alone. -/
theorem eq_parentheses {as : List Tree} {above : List Frame}
    (hfits : (Tree.node .argumentList as).Fits)
    (hempty : (Place.arguments ⟨.node .argumentList as, above⟩).length = 0) :
    ∃ opening closing : Token, as = [.token opening, .token closing] ∧ opening.kind = .openParen ∧
      closing.kind = .closeParen := by
  obtain ⟨opening, closing, ds, rfl, ho, hc, rfl | hlist⟩ := children_of_argumentList hfits
  · exact ⟨opening, closing, rfl, ho, hc⟩
  · cases hlist with
    | @cons t ts ht hts =>
        obtain ⟨k, cs, rfl, hk⟩ := ht.eq_node
        obtain rfl := eq_of_beq hk
        simp [Place.arguments, Place.children, Place.childrenFrom, isNode, Place.isKind,
          Place.nodeKind?] at hempty

/-- A list in a call is the one that the call ends with. -/
theorem eq_listPlace {list call : Place} {callee : Tree} {as : List Tree}
    (hlist : list.isKind .argumentList = true) (hparent : list.parent? = some call)
    (hcall : call.focus = .node .invocation [callee, .node .argumentList as])
    (hcallee : FitsAs NodeKind.isExpr callee) :
    list = Rewrite.listPlace callee (.node .argumentList as) call.above := by
  obtain ⟨t, _ | ⟨⟨k, before, after⟩, fs⟩⟩ := list
  · cases hparent
  · obtain rfl : _ = call := by simpa using hparent
    obtain ⟨rfl, hchildren⟩ : k = .invocation ∧
        before.reverse ++ t :: after = [callee, .node .argumentList as] := by
      simpa [Frame.fill] using hcall
    obtain ⟨cs, rfl : t = .node .argumentList cs⟩ := Place.isKind_iff.mp hlist
    rcases hbefore : before.reverse with _ | ⟨x, _ | ⟨y, ys⟩⟩
    · -- the callee is no list
      obtain ⟨rfl, -⟩ : Tree.node .argumentList cs = callee ∧ _ := by
        simpa [hbefore] using hchildren
      cases hcallee.isOf
    · obtain ⟨rfl, rfl, rfl⟩ : x = callee ∧ cs = as ∧ after = [] := by
        simpa [hbefore] using hchildren
      obtain rfl : before = [x] := by simpa using congrArg List.reverse hbefore
      rfl
    · simp [hbefore] at hchildren

/-- The parts of a call whose roles are filled by a member and by a list without arguments. -/
theorem exists_bareCall {call callee list : Place} (hfits : call.root.Fits)
    (hcall : call.isKind .invocation = true) (hcallee : call.callee? = some callee)
    (hmember : callee.isKind .memberAccess = true) (hlist : call.argumentList? = some list)
    (hempty : list.arguments.length = 0) :
    ∃ b : BareCall, call = b.call ∧ callee = b.calleePlace ∧ list = b.listPlace := by
  obtain ⟨e, as, hfocus, he, has, hargs⟩ := eq_call hfits hcall
  obtain rfl := Option.some.inj (hlist.symm.trans hargs)
  obtain ⟨opening, closing, rfl, ho, hc⟩ := eq_parentheses has hempty
  obtain ⟨t, above⟩ := call
  obtain rfl : t = _ := hfocus
  obtain ⟨k, cs, rfl, hk⟩ := he.eq_node
  have hne : k ≠ .argumentList := by rintro rfl; cases hk
  obtain rfl : _ = callee := by
    simpa [Place.callee?, Place.children, Place.childrenFrom, isNode, Place.isKind,
      Place.nodeKind?, hne] using hcallee
  obtain rfl : k = .memberAccess := by simpa [Place.isKind, Place.nodeKind?] using hmember
  obtain ⟨target, dot, name, rfl, ht, hd, hn⟩ := children_of_memberAccess he.fits
  exact ⟨⟨target, dot, name, opening, closing, above, ht, hd, hn, ho, hc⟩, rfl, rfl, rfl⟩

theorem BareCall.candidateAt_of_nearest (b : BareCall) {n : Place}
    (h : n.ancestors.find? (·.isKind .argumentList) = some b.listPlace) :
    candidateAt n = .ok b.candidate := by
  rw [candidateAt, h]
  simp [candidate]

theorem candidateAt_eq_ok {n : Place} {c : Candidate} (hfits : n.root.Fits) :
    candidateAt n = .ok c ↔ ∃ b : BareCall, c = b.candidate ∧
      n.ancestors.find? (·.isKind .argumentList) = some b.listPlace := by
  constructor
  · intro h
    rw [candidateAt] at h
    split at h
    · cases h
    · next list hnearest =>
      split at h
      · cases h
      · next hempty =>
        split at h
        · cases h
        · next call howner =>
          split at h
          · cases h
          · next receiver hreceiver =>
            obtain rfl : _ = c := by simpa using h
            obtain ⟨hparent, hcall⟩ := Option.filter_eq_some_iff.mp howner
            obtain ⟨access, haccess, hr⟩ := Option.bind_eq_some_iff.mp hreceiver
            obtain ⟨hcallee, hmember⟩ := Option.filter_eq_some_iff.mp haccess
            have hroot : call.root = n.root := (Place.root_of_parent? hparent).symm.trans
              (Place.root_of_mem_ancestors (List.mem_of_find?_eq_some hnearest))
            have hlist : call.argumentList? = some list := by
              obtain ⟨e, as, hfocus, he, -, hargs⟩ := eq_call (hroot ▸ hfits) hcall
              rw [hargs, eq_listPlace (by simpa using List.find?_some hnearest) hparent hfocus he]
            obtain ⟨b, rfl, rfl, rfl⟩ := exists_bareCall (hroot ▸ hfits) hcall hcallee hmember hlist
              (by simpa using hempty)
            obtain rfl : _ = receiver := by simpa using hr
            exact ⟨b, rfl, hnearest⟩
  · rintro ⟨b, rfl, hnearest⟩
    exact b.candidateAt_of_nearest hnearest

theorem exists_bareCall_of_candidateAt {n : Place} {c : Candidate} (hfits : n.root.Fits)
    (h : candidateAt n = .ok c) : ∃ b : BareCall, c = b.candidate ∧ b.call.root = n.root := by
  obtain ⟨b, hb, hnearest⟩ := (candidateAt_eq_ok hfits).mp h
  have hroot : b.listPlace.root = n.root :=
    Place.root_of_mem_ancestors (List.mem_of_find?_eq_some hnearest)
  exact ⟨b, hb, hroot⟩

/-- The only node that has a candidate is the empty list itself. -/
theorem candidateAt_node_eq_ok {n : Place} {c : Candidate} (hfits : n.root.Fits)
    (hn : n.focus.isNode = true) :
    candidateAt n = .ok c ↔ ∃ b : BareCall, c = b.candidate ∧ n = b.listPlace := by
  rw [candidateAt_eq_ok hfits]
  refine exists_congr fun b => and_congr_right fun _ => ⟨fun hnearest => ?_, ?_⟩
  · exact (Place.eq_of_mem_ancestors hn rfl (List.mem_of_find?_eq_some hnearest)).symm
  · rintro rfl
    rfl

end CallFill.Offer
