import CallFill.Proofs.Following
import CallFill.Proofs.Offering

/-!
# Expressions in parentheses

Each pair of parentheses around an expression takes one of the steps in which its type is looked up.
So the parentheses have the type of what is inside as far as the chain from there to its type is
short enough for the steps that are left, and otherwise none.  A call is then accepted with a
receiver in parentheses as it is without, or not at all.
-/

namespace CallFill

/-- So many pairs of parentheses stand around an expression. -/
inductive Place.Wraps : Place → Nat → Place → Prop
  | nothing (e : Place) : Wraps e 0 e
  | pair {p inner e : Place} {n : Nat} (hkind : p.isKind .parenthesized = true)
      (hinner : p.children = [inner]) (h : Wraps inner n e) : Wraps p (n + 1) e

theorem Place.Wraps.root_eq {p e : Place} {n : Nat} (h : p.Wraps n e) : e.root = p.root := by
  induction h with
  | nothing => rfl
  | pair _ hinner _ ih =>
      rw [ih]
      exact root_of_parent? (mem_children.mp (by simp [hinner])).2

namespace Scope

/-! ## Steps for parentheses -/

theorem typeWithin_wraps (s : Scope) {p e : Place} {n : Nat} (h : p.Wraps n e) (steps : Nat) :
    s.typeWithin steps p = s.typeWithin (steps - n) e := by
  induction h generalizing steps with
  | nothing e => rfl
  | pair hkind hinner _ ih =>
      cases steps with
      | zero => simp [typeWithin]
      | succ steps =>
          rw [Nat.add_sub_add_right, ← ih steps]
          simp [typeWithin, beq_iff_eq.mp hkind, hinner]

/-- A chain to a type is the only one, so fewer steps than it has links find nothing. -/
theorem typeWithin_eq_none_of_isChain {s : Scope} {e : Place} {es : List Place} {t : TypeSymbol}
    (hfits : e.root.Fits) (hchain : (e :: es).IsChain s.Follows)
    (hgives : s.Gives (es.getLastD e) t) {steps : Nat} (hle : steps ≤ es.length) :
    s.typeWithin steps e = none := by
  induction steps generalizing e es with
  | zero => rfl
  | succ steps ih =>
      obtain _ | ⟨e', es⟩ := es
      · exact absurd hle (Nat.not_succ_le_zero steps)
      · obtain ⟨hfollows, hchain⟩ := List.isChain_cons_cons.mp hchain
        rw [List.getLastD_cons] at hgives
        have hnone := ih (hfollows.root_eq ▸ hfits) hchain hgives (Nat.le_of_succ_le_succ hle)
        rw [Option.eq_none_iff_forall_ne_some]
        intro t' ht'
        rcases (typeWithin_succ_eq_some hfits).mp ht' with hgives' | ⟨e'', hfollows', ht'⟩
        · exact hfollows.not_gives hgives'
        · rw [← hfollows.unique hfollows', hnone] at ht'
          cases ht'

section

variable {s : Scope} {p e : Place} {n : Nat} {t : TypeSymbol}

theorem typeOf_wraps_eq_some (hfits : p.root.Fits) (h : p.Wraps n e) : s.typeOf p = some t ↔
    ∃ es : List Place, es.length + n ≤ 8 ∧ (e :: es).IsChain s.Follows ∧
      s.Gives (es.getLastD e) t := by
  rw [typeOf, typeWithin_wraps s h, typeWithin_eq_some (h.root_eq ▸ hfits)]
  refine exists_congr fun es => and_congr_left fun _ => ?_
  rw [stepLimit]
  omega

/-- What is found in parentheses is found without them. -/
theorem typeOf_of_wraps (hfits : p.root.Fits) (h : p.Wraps n e) (ht : s.typeOf p = some t) :
    s.typeOf e = some t := by
  rw [typeOf, typeWithin_wraps s h] at ht
  exact typeWithin_mono (h.root_eq ▸ hfits) ht (Nat.sub_le _ _)

theorem typeOf_wraps_eq_or (hfits : p.root.Fits) (h : p.Wraps n e) :
    s.typeOf p = s.typeOf e ∨ s.typeOf p = none := by
  cases ht : s.typeOf p with
  | none => exact .inr rfl
  | some t => exact .inl (typeOf_of_wraps hfits h ht).symm

theorem typeOf_wraps_eq_iff (hfits : p.root.Fits) (h : p.Wraps n e) : s.typeOf p = s.typeOf e ↔
    ∀ (es : List Place) (t : TypeSymbol), es.length ≤ 8 → (e :: es).IsChain s.Follows →
      s.Gives (es.getLastD e) t → es.length + n ≤ 8 := by
  have hfits' : e.root.Fits := h.root_eq ▸ hfits
  constructor
  · intro heq es t hlen hchain hgives
    have ht : s.typeOf e = some t :=
      (typeWithin_eq_some hfits').mpr ⟨es, Nat.lt_succ_of_le hlen, hchain, hgives⟩
    by_contra hlong
    rw [← heq, typeOf, typeWithin_wraps s h, stepLimit,
      typeWithin_eq_none_of_isChain hfits' hchain hgives (by omega)] at ht
    cases ht
  · intro hshort
    cases ht : s.typeOf e with
    | none =>
        rcases typeOf_wraps_eq_or (s := s) hfits h with heq | hnone
        · rw [heq, ht]
        · exact hnone
    | some t =>
        obtain ⟨es, hlen, hchain, hgives⟩ := (typeWithin_eq_some hfits').mp ht
        exact (typeOf_wraps_eq_some hfits h).mpr
          ⟨es, hshort es t (Nat.le_of_lt_succ hlen) hchain hgives, hchain, hgives⟩

end

end Scope

/-! ## Calls -/

namespace Offer

/-- A call of the right shape can be filled in a scope. -/
def Candidate.Accepted (c : Candidate) (scope : Scope) (s : Settings) : Prop :=
  ∃ f, ((c.check scope.binder s).run ⟨(), false⟩).1 = .ok f

theorem Candidate.accepted_iff {c : Candidate} {scope : Scope} {s : Settings} :
    c.Accepted scope s ↔ ∃ type, scope.typeOf c.receiver = some type ∧ type.isInterface = true ∧
      scope.references.any (Text.mentions · s.library) = true := by
  rw [Accepted, run_check, run_typeOf_binder]
  cases scope.typeOf c.receiver with
  | none => simp
  | some type =>
      dsimp only
      rw [run_references_binder]
      dsimp only
      generalize scope.references.any (Text.mentions · s.library) = referenced
      cases hkind : type.isInterface <;> cases referenced <;> simp [hkind]

end Offer

namespace Scope

/-- Parentheses keep the type of an expression as far as the chain to it, with one more link for
each pair, has at most eight; beyond they have none.  A call is accepted with a receiver in
parentheses if they keep its type and it is accepted without them. -/
theorem typeOf_wraps (s : Scope) {source : String} {g : Tree}
    (h : Grammar.document source = .ok g ∨ Grammar.expression source = .ok g) {p e : Place} {n : Nat}
    (hp : p ∈ (Place.ofRoot g).descendants) (hwraps : p.Wraps n e) :
    (∀ t, s.typeOf p = some t ↔ ∃ es : List Place, es.length + n ≤ 8 ∧
      (e :: es).IsChain s.Follows ∧ s.Gives (es.getLastD e) t) ∧
    (s.typeOf p = s.typeOf e ∨ s.typeOf p = none) ∧
    (s.typeOf p = s.typeOf e ↔ ∀ (es : List Place) (t : TypeSymbol), es.length ≤ 8 →
      (e :: es).IsChain s.Follows → s.Gives (es.getLastD e) t → es.length + n ≤ 8) ∧
    ∀ (c : Offer.Candidate) (settings : Settings), c.receiver = p → (c.Accepted s settings ↔
      s.typeOf p = s.typeOf e ∧ { c with receiver := e }.Accepted s settings) := by
  have hfits : p.root.Fits := by
    rw [(Place.mem_descendants_ofRoot.mp hp).2]
    exact h.elim Grammar.document_fits Grammar.expression_fits
  refine ⟨fun t => typeOf_wraps_eq_some hfits hwraps, typeOf_wraps_eq_or hfits hwraps,
    typeOf_wraps_eq_iff hfits hwraps, ?_⟩
  rintro c settings rfl
  rw [Offer.Candidate.accepted_iff, Offer.Candidate.accepted_iff]
  constructor
  · rintro ⟨type, htype, haccepted⟩
    have htype' := typeOf_of_wraps hfits hwraps htype
    exact ⟨htype.trans htype'.symm, type, htype', haccepted⟩
  · rintro ⟨heq, type, htype, haccepted⟩
    exact ⟨type, heq.trans htype, haccepted⟩

/-- A tree in so many pairs of parentheses. -/
def parenthesized : Nat → Tree → Tree
  | 0, t => t
  | n + 1, t =>
    .node .parenthesized [.leaf .openParen "(", parenthesized n t, .leaf .closeParen ")"]

theorem isNode_parenthesized {t : Tree} (h : t.isNode = true) (n : Nat) :
    (parenthesized n t).isNode = true := by
  cases n with
  | zero => exact h
  | succ n => rfl

/-- A pair of parentheses with a gap between them. -/
def parentheses : Frame := ⟨.parenthesized, [.leaf .openParen "("], [.leaf .closeParen ")"]⟩

theorem wraps_parenthesized {t : Tree} (h : t.isNode = true) (n : Nat) (above : List Frame) :
    Place.Wraps ⟨parenthesized n t, above⟩ n ⟨t, List.replicate n parentheses ++ above⟩ := by
  induction n generalizing above with
  | zero => exact .nothing _
  | succ n ih =>
      have hinner : Place.children ⟨parenthesized (n + 1) t, above⟩ =
          [⟨parenthesized n t, parentheses :: above⟩] := by
        have hleaf (k : TokenKind) (word : String) : (Tree.leaf k word).isNode = false := rfl
        simp [parenthesized, Place.children, Place.childrenFrom, isNode_parenthesized h, hleaf,
          parentheses]
      have hframes : List.replicate (n + 1) parentheses ++ above =
          List.replicate n parentheses ++ parentheses :: above := by
        rw [List.replicate_succ', List.append_assoc, List.singleton_append]
      rw [hframes]
      exact .pair rfl hinner (ih (parentheses :: above))

/-- What is around the receiver of `M()` in a document. -/
def memberCall : List Frame :=
  [⟨.memberAccess, [], [.leaf .dot ".", .identifierName "M"]⟩,
    ⟨.invocation, [], [.argumentList []]⟩, ⟨.expressionStatement, [], [.leaf .semicolon ";"]⟩,
    ⟨.compilationUnit, [], [Grammar.endOfFile ""]⟩]

/-- A receiver in nine pairs of parentheses. -/
def nineParentheses : Place := ⟨parenthesized 9 (.identifierName "x"), memberCall⟩

/-- A scope that knows what `x` is. -/
def knownVariable : Scope :=
  ((empty.declareType "N.I" .interfaceType).declareLocal "x" "N.I").reference "NSubstitute"

theorem typeOf_wraps_nineParentheses :
    Grammar.document "(((((((((x))))))))).M();" = .ok nineParentheses.root ∧
      nineParentheses ∈ (Place.ofRoot nineParentheses.root).descendants ∧
      ∃ e, nineParentheses.Wraps 9 e ∧ e.text = "x" ∧
        knownVariable.typeOf nineParentheses ≠ knownVariable.typeOf e := by
  have hd : Grammar.document "(((((((((x))))))))).M();" = .ok nineParentheses.root := rfl
  have hp : nineParentheses ∈ (Place.ofRoot nineParentheses.root).descendants :=
    Place.mem_descendants_ofRoot.mpr ⟨rfl, rfl⟩
  have hwraps := wraps_parenthesized (t := .identifierName "x") rfl 9 memberCall
  refine ⟨hd, hp, _, hwraps, rfl, fun heq => ?_⟩
  -- the variable is at the end of a chain without links, to which nine are added
  have hlong := ((typeOf_wraps knownVariable (.inl hd) hp hwraps).2.2.1.mp heq) [] _
    (Nat.zero_le 8) (.singleton _) (.inScope rfl rfl rfl)
  exact absurd hlong (by decide)

/-- The ninth pair of parentheses loses the type that the eighth still has. -/
theorem typeOf_nineParentheses_lost :
    Grammar.document "(((((((((x))))))))).M();" = .ok nineParentheses.root ∧
      nineParentheses ∈ (Place.ofRoot nineParentheses.root).descendants ∧
      nineParentheses.isKind .parenthesized = true ∧
      ∃ inside, nineParentheses.children = [inside] ∧
        knownVariable.typeOf inside = some (.ofQualified "N.I" .interfaceType) ∧
        knownVariable.typeOf nineParentheses = none ∧
        ∃ list c, Offer.candidateAt list = .ok c ∧ c.receiver = nineParentheses ∧
          ¬ c.Accepted knownVariable {} ∧
          { c with receiver := inside }.Accepted knownVariable {} := by
  have htype : knownVariable.typeOf ⟨parenthesized 8 (.identifierName "x"),
      parentheses :: memberCall⟩ = some (.ofQualified "N.I" .interfaceType) := by decide +kernel
  have hnone : knownVariable.typeOf nineParentheses = none := by decide +kernel
  refine ⟨rfl, Place.mem_descendants_ofRoot.mpr ⟨rfl, rfl⟩, rfl, _, rfl, htype, hnone,
    ⟨.argumentList [], ⟨.invocation, [.memberAccess nineParentheses.focus (.identifierName "M")],
      []⟩ :: memberCall.drop 2⟩, _, rfl, rfl, ?_, ?_⟩
  · rw [Offer.Candidate.accepted_iff]
    rintro ⟨type, htype, -⟩
    cases hnone.symm.trans htype
  · rw [Offer.Candidate.accepted_iff]
    exact ⟨_, htype, rfl, by decide +kernel⟩

end Scope

end CallFill
