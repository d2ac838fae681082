import Mathlib.Data.List.Chain
import Mathlib.Logic.Relation
import CallFill.Binding.Scope
import CallFill.Proofs.Positions
import CallFill.Proofs.Roles
import CallFill.Tree.Build

/-!
# Types followed through variables

The type of an expression is found at the end of a chain of expressions: into parentheses, and from
a variable to the value that it is first declared with.  One step of the lookup is one link of the
chain or its end, so by induction on the steps left an answer is a chain that is short enough.  No
expression has two successors, so the chain is determined: a longer limit gives no other answer, and
a chain that comes back to where it was has no end.
-/

namespace CallFill

open CallFill.Tree

namespace Place

/-- The first node in the order of a tree with a property. -/
theorem find?_descendants_eq_some {g : Tree} {p : Place → Bool} {d : Place} :
    (ofRoot g).descendants.find? p = some d ↔ d ∈ (ofRoot g).descendants ∧ p d = true ∧
      ∀ d' ∈ (ofRoot g).descendants, p d' = true → d' = d ∨ d.path < d'.path := by
  have hsorted : (ofRoot g).descendants.Pairwise fun a b => a.path < b.path :=
    descendantsFrom_pairwise [] g
  have hfirst {d : Place} (h : (ofRoot g).descendants.find? p = some d) :
      ∀ d' ∈ (ofRoot g).descendants, p d' = true → d' = d ∨ d.path < d'.path := by
    obtain ⟨-, before, after, hlist, hbefore⟩ := List.find?_eq_some_iff_append.mp h
    intro d' hmem hd'
    rw [hlist] at hmem hsorted
    rcases List.mem_append.mp hmem with hmem | hmem
    · have hno := hbefore d' hmem
      simp [hd'] at hno
    · refine (List.mem_cons.mp hmem).imp_right fun hmem => ?_
      exact List.rel_of_pairwise_cons (List.pairwise_append.mp hsorted).2.1 hmem
  refine ⟨fun h => ⟨List.mem_of_find?_eq_some h, List.find?_some h, hfirst h⟩, ?_⟩
  rintro ⟨hmem, hd, hd'⟩
  obtain ⟨c, hc⟩ := Option.isSome_iff_exists.mp (List.find?_isSome.mpr ⟨d, hmem, hd⟩)
  -- each of the two is the first
  rcases hfirst hc d hmem hd with rfl | hlt
  · exact hc
  · rcases hd' c (List.mem_of_find?_eq_some hc) (List.find?_some hc) with rfl | hgt
    · exact hc
    · exact absurd hgt (List.lt_asymm hlt)

/-! ## First declarations -/

/-- The statement `type name = value;`. -/
def Declares (d : Place) (name : String) (type value : Place) : Prop :=
  d.isKind .localDeclaration = true ∧ ∃ ident, d.IsDeclaration type value ident ∧ ident.text = name

theorem Declares.children {d : Place} {name : String} {type value : Place}
    (h : d.Declares name type value) : d.children = [type, value] := by
  obtain ⟨-, ident, hd, -⟩ := h
  exact hd.children

theorem childToken?_of_filter {n : Place} {k : TokenKind} {t : Token}
    (h : n.childTokens.filter (·.kind == k) = [t]) : n.childToken? k = some t := by
  rw [childToken?, ← List.head?_filter, h, List.head?_cons]

/-- In a fitting tree every declaration is of that form. -/
theorem declares_iff {d : Place} {name : String} (hfits : d.focus.Fits) :
    (d.isKind .localDeclaration && (d.childToken? .identifier).any (·.text == name)) = true ↔
      ∃ type value, d.Declares name type value := by
  rw [Bool.and_eq_true]
  constructor
  · rintro ⟨hkind, hname⟩
    obtain ⟨type, value, ident, hd⟩ := exists_isDeclaration hfits hkind
    rw [childToken?_of_filter hd.name] at hname
    exact ⟨type, value, hkind, ident, hd, by simpa using hname⟩
  · rintro ⟨type, value, hkind, ident, hd, rfl⟩
    exact ⟨hkind, by simp [childToken?_of_filter hd.name]⟩

end Place

/-- The first declaration of a name in a document is `type name = value;`. -/
def Tree.FirstDeclares (g : Tree) (name : String) (type value : Place) : Prop :=
  ∃ d ∈ (Place.ofRoot g).descendants, d.Declares name type value ∧
    ∀ d' ∈ (Place.ofRoot g).descendants, (∃ type' value', d'.Declares name type' value') →
      d' = d ∨ d.path < d'.path

theorem Tree.FirstDeclares.unique {g : Tree} {name : String} {type value type' value' : Place}
    (h : g.FirstDeclares name type value) (h' : g.FirstDeclares name type' value') :
    type = type' ∧ value = value' := by
  obtain ⟨d, hmem, hd, hfirst⟩ := h
  obtain ⟨d', hmem', hd', hfirst'⟩ := h'
  have hsame : d' = d := by
    rcases hfirst d' hmem' ⟨_, _, hd'⟩ with heq | hlt
    · exact heq
    · rcases hfirst' d hmem ⟨_, _, hd⟩ with heq | hgt
      · exact heq.symm
      · exact absurd hgt (List.lt_asymm hlt)
  have hchildren := hd'.children
  rw [hsame, hd.children] at hchildren
  simpa using hchildren

/-! ## Substitutes -/

/-- The call `Substitute.For<type, ...>(...)`. -/
structure Place.Substitutes (call type : Place) : Prop where
  kind : call.isKind .invocation = true
  callee : ∃ access receiver member arguments : Place, call.callee? = some access ∧
    access.isKind .memberAccess = true ∧ access.children = [receiver, member] ∧
    receiver.text = "Substitute" ∧ member.isKind .genericName = true ∧
    member.childTokens.map (·.text) = ["For"] ∧ member.children = [arguments] ∧
    arguments.isKind .typeArgumentList = true ∧ arguments.children.head? = some type

namespace Scope

/-! ## Links and ends -/

section

variable (s : Scope)

/-- An expression has the type of another: of the one in its parentheses, or of the value of its
first declaration, if that is `var name = value;`. -/
inductive Follows : Place → Place → Prop
  | inside {e inner : Place} (hkind : e.isKind .parenthesized = true)
      (hinner : e.children = [inner]) : Follows e inner
  | value {e type value : Place} (hkind : e.isKind .identifierName = true)
      (hlocal : s.locals.lookup e.text = none) (hfirst : e.root.FirstDeclares e.text type value)
      (hvar : type.text = "var") : Follows e value

/-- An expression has a type of its own: that of a variable of the scope, the one that its first
declaration names, or the one that it is a substitute for. -/
inductive Gives : Place → TypeSymbol → Prop
  | inScope {e : Place} {name : String} {t : TypeSymbol} (hkind : e.isKind .identifierName = true)
      (hlocal : s.locals.lookup e.text = some name) (htype : s.type? name = some t) : Gives e t
  | explicit {e type value : Place} {t : TypeSymbol} (hkind : e.isKind .identifierName = true)
      (hlocal : s.locals.lookup e.text = none) (hfirst : e.root.FirstDeclares e.text type value)
      (hvar : type.text ≠ "var") (htype : s.type? type.text = some t) : Gives e t
  | substitute {e type : Place} {t : TypeSymbol} (hcall : e.Substitutes type)
      (htype : s.type? type.text = some t) : Gives e t

end

theorem exists_declaration?_iff {usage type value : Place} {name : String}
    (hfits : usage.root.Fits) :
    (∃ d, declaration? usage name = some d ∧ d.children = [type, value]) ↔
      usage.root.FirstDeclares name type value := by
  have hdeclares {d : Place} (hd : d ∈ (Place.ofRoot usage.root).descendants) :
      (d.isKind .localDeclaration && (d.childToken? .identifier).any (·.text == name)) = true ↔
        ∃ type value, d.Declares name type value := by
    refine Place.declares_iff ?_
    rw [← (Place.mem_descendants_ofRoot.mp hd).2] at hfits
    exact Place.fits_of_fillAll hfits
  simp only [declaration?, Place.find?_descendants_eq_some]
  constructor
  · rintro ⟨d, ⟨hmem, hd, hfirst⟩, hchildren⟩
    obtain ⟨type', value', hd⟩ := (hdeclares hmem).mp hd
    obtain ⟨rfl, rfl⟩ : type' = type ∧ value' = value := by
      simpa [hd.children] using hchildren
    exact ⟨d, hmem, hd, fun d' hmem' hd' => hfirst d' hmem' ((hdeclares hmem').mpr hd')⟩
  · rintro ⟨d, hmem, hd, hfirst⟩
    exact ⟨d, ⟨hmem, (hdeclares hmem).mpr ⟨_, _, hd⟩,
      fun d' hmem' hd' => hfirst d' hmem' ((hdeclares hmem').mp hd')⟩, hd.children⟩

/-! ## One step -/

theorem substituted?_parts {call : Place} {name : String} : substituted? call = some name ↔
    call.isKind .invocation = true ∧
      ∃ access, call.memberAccess? = some access ∧
      ∃ receiver, access.receiver? = some receiver ∧ receiver.text = "Substitute" ∧
      ∃ member, access.member? = some member ∧
        (member.isKind .genericName = true ∧ access.memberName? = some "For") ∧
      ∃ arguments, member.child? .typeArgumentList = some arguments ∧
      ∃ type, arguments.children.head? = some type ∧ type.text = name := by
  simp [substituted?, Option.bind_eq_some_iff, guard]

theorem substituted?_eq_some {call : Place} {name : String} (hfits : call.focus.Fits) :
    substituted? call = some name ↔ ∃ type, call.Substitutes type ∧ type.text = name := by
  rw [substituted?_parts]
  constructor
  · rintro ⟨hkind, access, haccess, receiver, hreceiver, htext, member, hmember, ⟨hgeneric, hname⟩,
      arguments, harguments, type, htype, rfl⟩
    obtain ⟨hcallee, haccesskind⟩ := Option.filter_eq_some_iff.mp haccess
    have haccessfits := Place.fits_of_mem_children hfits (List.mem_of_find?_eq_some hcallee)
    obtain ⟨receiver', member', word, ha⟩ := Place.exists_isMemberAccess haccessfits haccesskind
    obtain rfl : receiver' = receiver := Option.some.inj (ha.receiver.symm.trans hreceiver)
    obtain rfl : member' = member := Option.some.inj (ha.member.symm.trans hmember)
    have hmemberfits :=
      Place.fits_of_mem_children haccessfits (q := member') (by simp [ha.children])
    obtain ⟨arguments', ident, hg⟩ := Place.exists_isGenericName hmemberfits hgeneric
    obtain rfl : arguments' = arguments := Option.some.inj (hg.arguments.symm.trans harguments)
    rw [Place.memberName?_of_childToken? hmember hg.ident] at hname
    exact ⟨type, ⟨hkind, access, receiver', member', arguments', hcallee, haccesskind, ha.children,
      htext, hgeneric, by simpa [hg.childTokens] using hname, hg.children, hg.arguments_kind,
      htype⟩, rfl⟩
  · rintro ⟨type, ⟨hkind, access, receiver, member, arguments, hcallee, haccesskind, haccess, htext,
      hgeneric, hfor, harguments, hlist, htype⟩, rfl⟩
    have haccessfits := Place.fits_of_mem_children hfits (List.mem_of_find?_eq_some hcallee)
    have hmemberfits := Place.fits_of_mem_children haccessfits (q := member) (by simp [haccess])
    obtain ⟨arguments', ident, hg⟩ := Place.exists_isGenericName hmemberfits hgeneric
    obtain rfl : arguments' = arguments := by simpa [hg.children] using harguments
    have hreceiver : access.receiver? = some receiver := by simp [Place.receiver?, haccess]
    have hmember : access.member? = some member := by simp [Place.member?, haccess]
    have hname : access.memberName? = some "For" := by
      rw [Place.memberName?_of_childToken? hmember hg.ident]
      simpa [hg.childTokens] using hfor
    exact ⟨hkind, access, Option.filter_eq_some_iff.mpr ⟨hcallee, haccesskind⟩, receiver, hreceiver,
      htext, member, hmember, ⟨hgeneric, hname⟩, arguments', hg.arguments, type, htype, rfl⟩

theorem Follows.root_eq {s : Scope} {e e' : Place} (h : s.Follows e e') : e'.root = e.root := by
  cases h with
  | inside _ hinner =>
      exact Place.root_of_parent? (Place.mem_children.mp (by simp [hinner])).2
  | value _ _ hfirst _ =>
      obtain ⟨d, hmem, hd, -⟩ := hfirst
      have hvalue : e' ∈ d.children := by simp [hd.children]
      rw [Place.root_of_parent? (Place.mem_children.mp hvalue).2]
      exact (Place.mem_descendants_ofRoot.mp hmem).2

theorem exists_firstDeclares {usage d : Place} {name : String} (hfits : usage.root.Fits)
    (h : declaration? usage name = some d) :
    ∃ type value, d.children = [type, value] ∧ usage.root.FirstDeclares name type value := by
  obtain ⟨hmem, hd, -⟩ := Place.find?_descendants_eq_some.mp h
  rw [← (Place.mem_descendants_ofRoot.mp hmem).2] at hfits
  obtain ⟨type, value, hd⟩ := (Place.declares_iff (Place.fits_of_fillAll hfits)).mp hd
  have hroot := (Place.mem_descendants_ofRoot.mp hmem).2
  exact ⟨type, value, hd.children,
    (exists_declaration?_iff (hroot ▸ hfits)).mp ⟨d, h, hd.children⟩⟩

/-- One step of the lookup: the expression has a type of its own, or the type of the next one. -/
theorem typeWithin_succ_eq_some {s : Scope} {steps : Nat} {e : Place} {t : TypeSymbol}
    (hfits : e.root.Fits) : s.typeWithin (steps + 1) e = some t ↔
      s.Gives e t ∨ ∃ e', s.Follows e e' ∧ s.typeWithin steps e' = some t := by
  have hfocus : e.focus.Fits := Place.fits_of_fillAll hfits
  have hkind {k : NodeKind} : e.isKind k = true ↔ e.nodeKind? = some k := beq_iff_eq
  constructor
  · intro h
    rw [typeWithin] at h
    split at h
    · next hk =>
      obtain ⟨inner, hinner⟩ := Place.exists_inside hfocus (hkind.mpr hk)
      rw [hinner] at h
      exact .inr ⟨inner, .inside (hkind.mpr hk) hinner, h⟩
    · next hk =>
      split at h
      · next name hlocal => exact .inl (.inScope (hkind.mpr hk) hlocal h)
      · next hlocal =>
        split at h
        · cases h
        · next d hd =>
          obtain ⟨type, value, hchildren, hfirst⟩ := exists_firstDeclares hfits hd
          simp only [hchildren] at h
          split at h
          · next hvar => exact .inr ⟨value, .value (hkind.mpr hk) hlocal hfirst hvar, h⟩
          · next hvar => exact .inl (.explicit (hkind.mpr hk) hlocal hfirst hvar h)
    · split at h
      · next name hname =>
        obtain ⟨type, hcall, rfl⟩ := (substituted?_eq_some hfocus).mp hname
        exact .inl (.substitute hcall h)
      · cases h
    · cases h
  · rintro (hgives | ⟨e', hfollows, h⟩)
    · cases hgives with
      | inScope hk hlocal htype => simp [typeWithin, hkind.mp hk, hlocal, htype]
      | explicit hk hlocal hfirst hvar htype =>
          obtain ⟨d, hd, hchildren⟩ := (exists_declaration?_iff hfits).mpr hfirst
          simp [typeWithin, hkind.mp hk, hlocal, hd, hchildren, hvar, htype]
      | substitute hcall htype =>
          have hname := (substituted?_eq_some hfocus).mpr ⟨_, hcall, rfl⟩
          simp [typeWithin, hkind.mp hcall.kind, hname, htype]
    · cases hfollows with
      | inside hk hinner => simp [typeWithin, hkind.mp hk, hinner, h]
      | value hk hlocal hfirst hvar =>
          obtain ⟨d, hd, hchildren⟩ := (exists_declaration?_iff hfits).mpr hfirst
          simp [typeWithin, hkind.mp hk, hlocal, hd, hchildren, hvar, h]

/-! ## Chains -/

/-- An answer within so many steps is the end of a chain with fewer links. -/
theorem typeWithin_eq_some {s : Scope} {steps : Nat} {e : Place} {t : TypeSymbol}
    (hfits : e.root.Fits) : s.typeWithin steps e = some t ↔
      ∃ es, es.length < steps ∧ (e :: es).IsChain s.Follows ∧ s.Gives (es.getLastD e) t := by
  induction steps generalizing e with
  | zero => simp [typeWithin]
  | succ steps ih =>
      rw [typeWithin_succ_eq_some hfits]
      constructor
      · rintro (hgives | ⟨e', hfollows, h⟩)
        · exact ⟨[], Nat.succ_pos _, .singleton _, hgives⟩
        · obtain ⟨es, hlen, hchain, hgives⟩ := (ih (hfollows.root_eq ▸ hfits)).mp h
          exact ⟨e' :: es, Nat.succ_lt_succ hlen, .cons_cons hfollows hchain,
            by rwa [List.getLastD_cons]⟩
      · rintro ⟨_ | ⟨e', es⟩, hlen, hchain, hgives⟩
        · exact .inl hgives
        · obtain ⟨hfollows, hchain⟩ := List.isChain_cons_cons.mp hchain
          rw [List.getLastD_cons] at hgives
          exact .inr ⟨e', hfollows, (ih (hfollows.root_eq ▸ hfits)).mpr
            ⟨es, Nat.lt_of_succ_lt_succ hlen, hchain, hgives⟩⟩

theorem typeWithin_mono {s : Scope} {m n : Nat} {e : Place} {t : TypeSymbol}
    (hfits : e.root.Fits) (h : s.typeWithin m e = some t) (hle : m ≤ n) :
    s.typeWithin n e = some t := by
  obtain ⟨es, hlen, hchain⟩ := (typeWithin_eq_some hfits).mp h
  exact (typeWithin_eq_some hfits).mpr ⟨es, Nat.lt_of_lt_of_le hlen hle, hchain⟩

/-- A chain without a limit tells what any lookup can find. -/
theorem typeWithin_eq_none_or {s : Scope} {e : Place} {t : TypeSymbol} {es : List Place}
    (hfits : e.root.Fits) (hchain : (e :: es).IsChain s.Follows)
    (hgives : s.Gives (es.getLastD e) t) (steps : Nat) :
    s.typeWithin steps e = none ∨ s.typeWithin steps e = some t := by
  have hlong : s.typeWithin (es.length + 1) e = some t :=
    (typeWithin_eq_some hfits).mpr ⟨es, Nat.lt_succ_self _, hchain, hgives⟩
  refine Option.eq_none_or_eq_some (s.typeWithin steps e) |>.imp_right ?_
  rintro ⟨t', h⟩
  have hsame := (typeWithin_mono hfits h (Nat.le_add_right steps (es.length + 1))).symm.trans
    (typeWithin_mono hfits hlong (Nat.le_add_left (es.length + 1) steps))
  exact h.trans hsame

/-! ## Cycles -/

theorem Follows.unique {s : Scope} {e a b : Place} (ha : s.Follows e a) (hb : s.Follows e b) :
    a = b := by
  cases ha with
  | inside hk hinner =>
      cases hb with
      | inside _ hinner' => simpa [hinner] using hinner'
      | value hk' => cases Place.eq_of_isKind hk hk'
  | value hk _ hfirst _ =>
      cases hb with
      | inside hk' => cases Place.eq_of_isKind hk hk'
      | value _ _ hfirst' _ => exact (hfirst.unique hfirst').2

/-- An expression that is followed further has no type of its own. -/
theorem Follows.not_gives {s : Scope} {e e' : Place} {t : TypeSymbol} (h : s.Follows e e') :
    ¬ s.Gives e t := by
  intro hgives
  cases h with
  | inside hk _ =>
      cases hgives with
      | inScope hk' | explicit hk' => cases Place.eq_of_isKind hk hk'
      | substitute hcall => cases Place.eq_of_isKind hk hcall.kind
  | value hk hlocal hfirst hvar =>
      cases hgives with
      | inScope _ hlocal' => simp [hlocal] at hlocal'
      | explicit _ _ hfirst' hvar' => exact hvar' ((hfirst.unique hfirst').1 ▸ hvar)
      | substitute hcall => cases Place.eq_of_isKind hk hcall.kind

open Relation

/-- Where every expression on the way has a successor, nothing is found. -/
theorem typeWithin_endless {s : Scope} {e : Place} (hfits : e.root.Fits)
    (h : ∀ p, ReflTransGen s.Follows e p → ∃ q, s.Follows p q) (steps : Nat) :
    s.typeWithin steps e = none := by
  rw [Option.eq_none_iff_forall_ne_some]
  intro t
  induction steps generalizing e with
  | zero => simp [typeWithin]
  | succ steps ih =>
      rw [ne_eq, typeWithin_succ_eq_some hfits]
      rintro (hgives | ⟨e', hfollows, ht⟩)
      · obtain ⟨q, hq⟩ := h e .refl
        exact hq.not_gives hgives
      · exact ih (hfollows.root_eq ▸ hfits) (fun p hp => h p (.head hfollows hp)) ht

/-- What is reached from a cycle is on it. -/
theorem reaches_of_cycle {s : Scope} {p q : Place} (hcycle : TransGen s.Follows p p)
    (h : ReflTransGen s.Follows p q) : ReflTransGen s.Follows q p := by
  induction h with
  | refl => exact .refl
  | @tail q _ _ hstep ih =>
      have hback : TransGen s.Follows q p := by
        rcases ih.cases_head with rfl | ⟨c, hc, hcp⟩
        · exact hcycle
        · exact .head' hc hcp
      obtain ⟨c, hc, hcp⟩ := TransGen.head'_iff.mp hback
      exact hstep.unique hc ▸ hcp

theorem typeWithin_cycle {s : Scope} {e p : Place} (hfits : e.root.Fits)
    (h : ReflTransGen s.Follows e p) (hcycle : TransGen s.Follows p p) (steps : Nat) :
    s.typeWithin steps e = none := by
  have hunique : Relator.RightUnique s.Follows := fun _ _ _ => Follows.unique
  refine typeWithin_endless hfits (fun q hq => ?_) steps
  have hback : ReflTransGen s.Follows q p :=
    (ReflTransGen.total_of_right_unique hunique hq h).elim id (reaches_of_cycle hcycle)
  rcases hback.cases_head with rfl | ⟨c, hc, -⟩
  · obtain ⟨c, hc, -⟩ := TransGen.head'_iff.mp hcycle
    exact ⟨c, hc⟩
  · exact ⟨c, hc⟩

/-- An expression has a type if a chain of at most eight links leads from it to an expression with a
type of its own.  A cycle has none, and a longer chain is lost or gives the same type. -/
theorem typeOf_iff_chain (s : Scope) {source : String} {g : Tree}
    (h : Grammar.document source = .ok g ∨ Grammar.expression source = .ok g) {e : Place}
    (he : e ∈ (Place.ofRoot g).descendants) :
    (∀ t, s.typeOf e = some t ↔ ∃ es : List Place, es.length ≤ 8 ∧
      (e :: es).IsChain s.Follows ∧ s.Gives (es.getLastD e) t) ∧
    (∀ p, ReflTransGen s.Follows e p → TransGen s.Follows p p → s.typeOf e = none) ∧
    ∀ es t, (e :: es).IsChain s.Follows → s.Gives (es.getLastD e) t →
      s.typeOf e = none ∨ s.typeOf e = some t := by
  have hfits : e.root.Fits := by
    rw [(Place.mem_descendants_ofRoot.mp he).2]
    exact h.elim Grammar.document_fits Grammar.expression_fits
  refine ⟨fun t => ?_, fun p hp hcycle => ?_, fun es t hchain hgives => ?_⟩
  · simp only [typeOf, typeWithin_eq_some hfits, stepLimit, Nat.lt_succ_iff]
  · exact typeWithin_cycle hfits hp hcycle _
  · exact typeWithin_eq_none_or hfits hchain hgives _

/-- `var name=value;` -/
def varDeclaration (name : String) (value : Tree) : Tree :=
  .node .localDeclaration [.node .identifierName [.token ⟨.identifier, "", "var", " "⟩],
    .leaf .identifier name, .leaf .equals "=", value, .leaf .semicolon ";"]

/-- A variable whose value is another one, which is a substitute in parentheses. -/
def usedVariable : Place :=
  ⟨.identifierName "a",
    [⟨.memberAccess, [], [.leaf .dot ".", .identifierName "M"]⟩,
      ⟨.invocation, [], [.argumentList []]⟩,
      ⟨.expressionStatement, [], [.leaf .semicolon ";"]⟩,
      ⟨.compilationUnit,
        [varDeclaration "a" (.identifierName "b"),
          varDeclaration "b" (.node .parenthesized [.leaf .openParen "(",
            .invocation (.memberAccess (.identifierName "Substitute")
              (.genericName "For" (.typeArguments [.identifierName "I"]))) (.argumentList []),
            .leaf .closeParen ")"])],
        [Grammar.endOfFile ""]⟩]⟩

theorem typeOf_iff_chain_usedVariable :
    Grammar.document "var b=(Substitute.For<I>());var a=b;a.M();" = .ok usedVariable.root ∧
      usedVariable ∈ (Place.ofRoot usedVariable.root).descendants ∧
      ∃ es : List Place, es.length ≤ 8 ∧
        (usedVariable :: es).IsChain (empty.declareType "N.I" .interfaceType).Follows ∧
        (empty.declareType "N.I" .interfaceType).Gives (es.getLastD usedVariable)
          (.ofQualified "N.I" .interfaceType) := by
  have hd : Grammar.document "var b=(Substitute.For<I>());var a=b;a.M();" =
      .ok usedVariable.root := rfl
  have he : usedVariable ∈ (Place.ofRoot usedVariable.root).descendants :=
    Place.mem_descendants_ofRoot.mpr ⟨rfl, rfl⟩
  have htype : (empty.declareType "N.I" .interfaceType).typeOf usedVariable =
      some (.ofQualified "N.I" .interfaceType) := by decide +kernel
  exact ⟨hd, he, ((typeOf_iff_chain _ (.inl hd) he).1 _).mp htype⟩

end Scope

end CallFill
