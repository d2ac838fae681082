import Mathlib.Data.List.Induction
import CallFill.Proofs.Declarations
import CallFill.Proofs.Offering

/-!
# The two spellings of a type

The types of a scope are those whose simple name is not declared again later, and each of them is
found under its simple and under its qualified name.  So it does not matter by which of the two a
method names its declaring type.  Nor does it matter where a method is declared, as far as the
overloads of one name and type keep their order: a scope reads its methods in that order.
-/

namespace CallFill

/-- The last segment of a qualified name. -/
def Symbol.simpleName (qualified : String) : String := (segments qualified).getLastD ""

open CallFill.Symbol (simpleName)

@[simp] theorem TypeSymbol.name_ofQualified (qualified : String) (kind : TypeKind) :
    (ofQualified qualified kind).name = simpleName qualified := rfl

/-! ## Declarations that survive -/

/-- A type is declared, and no later one of the same simple name. -/
def Declaration.Survives (ds : List Declaration) (qualified : String) (kind : TypeKind) : Prop :=
  ∃ before after, ds = before ++ .type qualified kind :: after ∧
    ∀ later kind', .type later kind' ∈ after → simpleName later ≠ simpleName qualified

namespace Declaration

variable {ds : List Declaration} {q : String} {kind : TypeKind}

theorem not_survives_nil : ¬ Survives [] q kind := by
  rintro ⟨before, after, h, -⟩
  simp at h

theorem survives_concat {d : Declaration} : Survives (ds ++ [d]) q kind ↔ d = .type q kind ∨
    (Survives ds q kind ∧ ∀ later kind', d = .type later kind' → simpleName later ≠ simpleName q) := by
  constructor
  · rintro ⟨before, after, h, hafter⟩
    rcases List.eq_nil_or_concat after with rfl | ⟨init, last, rfl⟩
    · exact .inl (List.append_inj' h rfl |>.2 |> List.singleton_inj.mp)
    · rw [List.concat_eq_append, ← List.cons_append, ← List.append_assoc] at h
      obtain ⟨rfl, hlast⟩ := List.append_inj' h rfl
      obtain rfl := List.singleton_inj.mp hlast
      refine .inr ⟨⟨before, init, rfl, fun later kind' hmem => ?_⟩, fun later kind' hd => ?_⟩
      · exact hafter later kind' (by simp [hmem])
      · exact hafter later kind' (by simp [hd])
  · rintro (rfl | ⟨⟨before, after, rfl, hafter⟩, hd⟩)
    · exact ⟨ds, [], rfl, by simp⟩
    · refine ⟨before, after ++ [d], by simp, fun later kind' hmem => ?_⟩
      rcases List.mem_append.mp hmem with hmem | hmem
      · exact hafter later kind' hmem
      · exact hd later kind' (List.mem_singleton.mp hmem).symm

end Declaration

namespace Scope

open Declaration

variable {ds : List Declaration} {s s' : Scope}

theorem ofDeclarations_concat (ds : List Declaration) (d : Declaration) :
    ofDeclarations (ds ++ [d]) = (ofDeclarations ds).declare d := by
  simp [ofDeclarations]

/-- The types of a scope are those that survive. -/
theorem mem_types_ofDeclarations {t : TypeSymbol} : t ∈ (ofDeclarations ds).types ↔
    ∃ q kind, Survives ds q kind ∧ t = .ofQualified q kind := by
  induction ds using List.reverseRecOn with
  | nil => simp [ofDeclarations, empty, not_survives_nil]
  | append_singleton ds d ih =>
    simp only [ofDeclarations_concat, survives_concat]
    cases d with
    | type qualified kind =>
      simp only [declare, declareType, List.mem_cons, List.mem_filter, ih, bne_iff_ne]
      constructor
      · rintro (rfl | ⟨⟨q, kind', hq, rfl⟩, hname⟩)
        · exact ⟨qualified, kind, .inl rfl, rfl⟩
        · refine ⟨q, kind', .inr ⟨hq, ?_⟩, rfl⟩
          rintro later kind'' heq
          cases heq
          exact Ne.symm hname
      · rintro ⟨q, kind', heq | ⟨hq, hlater⟩, rfl⟩
        · cases heq
          exact .inl rfl
        · exact .inr ⟨⟨q, kind', hq, rfl⟩, Ne.symm (hlater qualified kind rfl)⟩
    | method m => simpa [declare, declareMethod] using ih
    | localVariable name type => simpa [declare, declareLocal] using ih
    | reference library => simpa [declare, Scope.reference] using ih

/-! ## Types by name -/

theorem Distinct.type?_name {t : TypeSymbol} (h : s.Distinct) (ht : t ∈ s.types) :
    s.type? t.name = some t := by
  rw [type?, Option.or_eq_some_iff]
  cases hname : s.types.find? (·.name == t.name) with
  | some u =>
    have heq : u.name = t.name := by simpa using List.find?_some hname
    exact .inl (by rw [h.eq_of_name_eq u (List.mem_of_find?_eq_some hname) t ht heq])
  | none => exact absurd (by simp) (List.find?_eq_none.mp hname t ht)

theorem name_eq_of_type? {t : TypeSymbol} {name : String} (h : s.type? name = some t) :
    name = t.name ∨ name = t.display := by
  rcases Option.or_eq_some_iff.mp h with h | ⟨-, h⟩
  · have heq : t.name = name := by simpa using List.find?_some h
    exact .inl heq.symm
  · have heq : t.display = name := by simpa using List.find?_some h
    exact .inr heq.symm

/-- A type that survives is found under both of its names, and under no other. -/
theorem type?_ofDeclarations {t : TypeSymbol} {name : String} :
    (ofDeclarations ds).type? name = some t ↔
      ∃ q kind, Survives ds q kind ∧ t = .ofQualified q kind ∧ (name = simpleName q ∨ name = q) := by
  constructor
  · intro h
    obtain ⟨q, kind, hq, rfl⟩ := mem_types_ofDeclarations.mp (mem_types_of_type? h)
    exact ⟨q, kind, hq, rfl, by simpa using name_eq_of_type? h⟩
  · rintro ⟨q, kind, hq, rfl, hname⟩
    have hmem := mem_types_ofDeclarations.mpr ⟨q, kind, hq, rfl⟩
    rcases hname with rfl | rfl
    · simpa using (distinct_ofDeclarations ds).type?_name hmem
    · simpa using (distinct_ofDeclarations ds).type?_display hmem

/-! ## Scopes that answer alike -/

/-- Two scopes give the same answers about all trees. -/
structure Agree (s s' : Scope) : Prop where
  typeOf : ∀ e, s.typeOf e = s'.typeOf e
  resolve : ∀ call, s.resolve call = s'.resolve call
  memberGroup : ∀ call, s.memberGroup call = s'.memberGroup call

theorem Agree.symm (h : Agree s s') : Agree s' s :=
  ⟨fun e => (h.typeOf e).symm, fun call => (h.resolve call).symm,
    fun call => (h.memberGroup call).symm⟩

/-- Two scopes have the same types and local variables. -/
structure SameNames (s s' : Scope) : Prop where
  types : s.types = s'.types
  locals : s.locals = s'.locals

theorem SameNames.symm (h : SameNames s s') : SameNames s' s := ⟨h.types.symm, h.locals.symm⟩

theorem SameNames.trans {s'' : Scope} (h : SameNames s s') (h' : SameNames s' s'') :
    SameNames s s'' :=
  ⟨h.types.trans h'.types, h.locals.trans h'.locals⟩

theorem SameNames.type? (h : SameNames s s') (name : String) : s.type? name = s'.type? name := by
  rw [Scope.type?, Scope.type?, h.types]

theorem SameNames.declaring (h : SameNames s s') (m : Method) :
    s.declaring m = s'.declaring m := by
  rw [Scope.declaring, Scope.declaring, h.type?]

theorem SameNames.typeWithin (h : SameNames s s') (steps : Nat) (e : Place) :
    s.typeWithin steps e = s'.typeWithin steps e := by
  induction steps generalizing e with
  | zero => rfl
  | succ steps ih => simp only [Scope.typeWithin, ih, h.type?, h.locals]

theorem SameNames.typeOf (h : SameNames s s') (e : Place) : s.typeOf e = s'.typeOf e :=
  h.typeWithin _ e

theorem SameNames.target? (h : SameNames s s') (call : Place) :
    s.target? call = s'.target? call := by
  simp only [Scope.target?, h.typeOf]

theorem SameNames.declare (h : SameNames s s') (d : Declaration) :
    SameNames (s.declare d) (s'.declare d) := by
  obtain ⟨htypes, hlocals⟩ := h
  cases d <;> constructor <;>
    simp [Scope.declare, declareType, declareMethod, declareLocal, Scope.reference, htypes, hlocals]

theorem SameNames.foldl_declare (h : SameNames s s') (ds : List Declaration) :
    SameNames (ds.foldl Scope.declare s) (ds.foldl Scope.declare s') := by
  induction ds generalizing s s' with
  | nil => exact h
  | cons d ds ih => exact ih (h.declare d)

/-- A method adds no names, wherever it is declared. -/
theorem sameNames_method (before : List Declaration) (m : Method) (after : List Declaration) :
    SameNames (ofDeclarations (before ++ .method m :: after)) (ofDeclarations (before ++ after)) := by
  rw [ofDeclarations, ofDeclarations, List.foldl_append, List.foldl_append, List.foldl_cons]
  refine SameNames.foldl_declare ?_ after
  exact ⟨rfl, rfl⟩

/-! ## Methods with their declaring types -/

/-- A method under the qualified name of its declaring type. -/
def bound (s : Scope) (m : Method) : Method := { m with declaring := s.declaring m }

theorem methodsOf_eq (s : Scope) (t : TypeSymbol) (name : String) : s.methodsOf t name =
    (s.methods.map s.bound).filter fun m => m.name == name && m.declaring == t.display := by
  rw [methodsOf, List.filter_map]
  rfl

theorem SameNames.bound (h : SameNames s s') : s.bound = s'.bound :=
  funext fun m => by rw [Scope.bound, Scope.bound, h.declaring]

theorem SameNames.memberGroup (h : SameNames s s') {R : List Method → List Method → Prop}
    (hnil : R [] []) (hmethods : ∀ t name, R (s.methodsOf t name) (s'.methodsOf t name))
    (call : Place) : R (s.memberGroup call) (s'.memberGroup call) := by
  rw [Scope.memberGroup, Scope.memberGroup, h.target? call]
  cases s'.target? call with
  | none => exact hnil
  | some target => exact hmethods target.1 target.2

theorem SameNames.agree (h : SameNames s s')
    (hmethods : ∀ t name, s.methodsOf t name = s'.methodsOf t name) : Agree s s' := by
  have hgroup := h.memberGroup rfl hmethods
  exact ⟨h.typeOf, fun call => by rw [resolve_eq, resolve_eq, hgroup], hgroup⟩

/-! ## Respelling -/

/-- A method may name its declaring type by either spelling. -/
theorem agree_respelled {q : String} {kind : TypeKind} {before after : List Declaration}
    {m : Method} {spelling : String} (hds : ds = before ++ .method m :: after)
    (hq : Survives ds q kind) (hm : m.declaring = simpleName q ∨ m.declaring = q)
    (hspelling : spelling = simpleName q ∨ spelling = q) :
    Agree (ofDeclarations ds)
      (ofDeclarations (before ++ .method { m with declaring := spelling } :: after)) := by
  subst hds
  have hnames := (sameNames_method before m after).trans
    (sameNames_method before { m with declaring := spelling } after).symm
  refine hnames.agree fun t name => ?_
  have htype : (ofDeclarations (before ++ .method m :: after)).type? m.declaring =
      (ofDeclarations (before ++ .method m :: after)).type? spelling := by
    rw [type?_ofDeclarations.mpr ⟨q, kind, hq, rfl, hm⟩,
      type?_ofDeclarations.mpr ⟨q, kind, hq, rfl, hspelling⟩]
  have hbound : (ofDeclarations (before ++ .method m :: after)).bound m =
      (ofDeclarations (before ++ .method m :: after)).bound { m with declaring := spelling } := by
    obtain ⟨u, hu⟩ : ∃ u, (ofDeclarations (before ++ .method m :: after)).type? spelling = some u :=
      ⟨_, type?_ofDeclarations.mpr ⟨q, kind, hq, rfl, hspelling⟩⟩
    simp [bound, declaring, htype, hu]
  rw [methodsOf_eq, methodsOf_eq, ← hnames.bound]
  simp [method?, hbound]

/-! ## Moving -/

/-- The second list declares a method behind others that stand behind it in the first. -/
def MovesBehind (m : Method) (others ds ds' : List Declaration) : Prop :=
  ∃ before after, ds = before ++ .method m :: (others ++ after) ∧
    ds' = before ++ (others ++ .method m :: after)

/-- Two methods are overloads in a scope: they have one name and declaring type, and other
parameters. -/
def IsOverload (s : Scope) (m m' : Method) : Prop :=
  m'.name = m.name ∧ s.declaring m' = s.declaring m ∧ m'.parameters ≠ m.parameters

section

variable {m : Method} {others ds' : List Declaration}

theorem MovesBehind.sameNames (h : MovesBehind m others ds ds') :
    SameNames (ofDeclarations ds) (ofDeclarations ds') := by
  obtain ⟨before, after, rfl, rfl⟩ := h
  have hleft := sameNames_method before m (others ++ after)
  have hright := sameNames_method (before ++ others) m after
  rw [List.append_assoc, List.append_assoc] at hright
  exact hleft.trans hright.symm

theorem MovesBehind.perm (h : MovesBehind m others ds ds') : ds.Perm ds' := by
  obtain ⟨before, after, rfl, rfl⟩ := h
  exact List.perm_middle.symm.append_left before

/-- A filter does not see whether one of its elements is moved over others, if those that pass are
equal to it. -/
theorem filter_moved {α : Type} {p : α → Bool} {a : α} {as : List α}
    (h : ∀ b ∈ as, p a = true → p b = true → b = a) (before after : List α) :
    (before ++ a :: (as ++ after)).filter p = (before ++ (as ++ a :: after)).filter p := by
  simp only [List.filter_append, List.filter_cons]
  by_cases ha : p a = true
  · have hall : as.filter p = List.replicate (as.filter p).length a := by
      refine List.eq_replicate_of_mem fun b hb => ?_
      obtain ⟨hb, hpb⟩ := List.mem_filter.mp hb
      exact h b hb ha hpb
    rw [if_pos ha, if_pos ha, hall, ← List.cons_append, ← List.replicate_succ, List.replicate_succ',
      List.append_assoc, List.singleton_append]
  · rw [if_neg ha, if_neg ha]

theorem bound_eq_of_not_isOverload {m' : Method} (h : ¬ s.IsOverload m m')
    (hname : m'.name = m.name) (hdeclaring : s.declaring m' = s.declaring m) :
    s.bound m' = s.bound m := by
  have hparameters : m'.parameters = m.parameters :=
    Decidable.not_not.mp fun hne => h ⟨hname, hdeclaring, hne⟩
  rw [bound, bound, Method.mk.injEq]
  exact ⟨hdeclaring, hname, hparameters⟩

/-- A method may be declared before or after anything but its overloads. -/
theorem MovesBehind.agree (hmoves : MovesBehind m others ds ds')
    (h : ∀ m', .method m' ∈ others → ¬ IsOverload (ofDeclarations ds) m m') :
    Agree (ofDeclarations ds) (ofDeclarations ds') := by
  refine hmoves.sameNames.agree fun t name => ?_
  rw [methodsOf_eq, methodsOf_eq, ← hmoves.sameNames.bound]
  obtain ⟨before, after, hds, hds'⟩ := hmoves
  have hmethods : (ofDeclarations ds).methods = before.filterMap method? ++
      m :: (others.filterMap method? ++ after.filterMap method?) := by
    simp [methods_ofDeclarations, hds, method?]
  have hmethods' : (ofDeclarations ds').methods = before.filterMap method? ++
      (others.filterMap method? ++ m :: after.filterMap method?) := by
    simp [methods_ofDeclarations, hds', method?]
  rw [hmethods, hmethods']
  simp only [List.map_append, List.map_cons]
  -- of the others, only equal methods are in the group of the one that is moved
  refine filter_moved (fun b hb hm hpb => ?_) _ _
  obtain ⟨m', hm', rfl⟩ := List.mem_map.mp hb
  have hmem : .method m' ∈ others := by
    obtain ⟨d, hd, hd'⟩ := List.mem_filterMap.mp hm'
    cases d <;> simp_all [method?]
  simp only [bound, Bool.and_eq_true, beq_iff_eq] at hm hpb
  exact bound_eq_of_not_isOverload (h m' hmem) (hpb.1.trans hm.1.symm) (hpb.2.trans hm.2.symm)

/-- Wherever a method is declared, it is in the same groups. -/
theorem MovesBehind.perm_memberGroup (h : MovesBehind m others ds ds') (call : Place) :
    ((ofDeclarations ds).memberGroup call).Perm ((ofDeclarations ds').memberGroup call) := by
  refine h.sameNames.memberGroup .nil (fun t name => ?_) call
  rw [methodsOf_eq, methodsOf_eq, ← h.sameNames.bound, methods_ofDeclarations,
    methods_ofDeclarations]
  exact ((h.perm.filterMap _).map _).filter _

end

/-! ## Declarations in any order -/

/-- Every type that survives is found under its simple and its qualified name, and no other name is
found.  A method may name its declaring type by either, and it may be declared before or after
anything but its overloads.  Moved over an overload it changes the order in their group alone. -/
theorem found_under_both_names (ds : List Declaration) :
    (∀ q kind, Survives ds q kind →
      (ofDeclarations ds).type? (simpleName q) = some (.ofQualified q kind) ∧
      (ofDeclarations ds).type? q = some (.ofQualified q kind) ∧
      (TypeSymbol.ofQualified q kind).display = q ∧ (TypeSymbol.ofQualified q kind).kind = kind) ∧
    (∀ name, (∀ q kind, Survives ds q kind → name ≠ simpleName q ∧ name ≠ q) →
      (ofDeclarations ds).type? name = none) ∧
    (∀ before m after q kind spelling, ds = before ++ .method m :: after → Survives ds q kind →
      (m.declaring = simpleName q ∨ m.declaring = q) → (spelling = simpleName q ∨ spelling = q) →
      Agree (ofDeclarations ds)
        (ofDeclarations (before ++ .method { m with declaring := spelling } :: after))) ∧
    ∀ m others ds', MovesBehind m others ds ds' ∨ MovesBehind m others ds' ds →
      ((∀ m', .method m' ∈ others → ¬ IsOverload (ofDeclarations ds) m m') →
        Agree (ofDeclarations ds) (ofDeclarations ds')) ∧
      (∀ e, (ofDeclarations ds).typeOf e = (ofDeclarations ds').typeOf e) ∧
      ∀ call, ((ofDeclarations ds).memberGroup call).Perm
        ((ofDeclarations ds').memberGroup call) := by
  refine ⟨fun q kind hq => ?_, fun name hname => ?_, ?_, ?_⟩
  · exact ⟨type?_ofDeclarations.mpr ⟨q, kind, hq, rfl, .inl rfl⟩,
      type?_ofDeclarations.mpr ⟨q, kind, hq, rfl, .inr rfl⟩, TypeSymbol.display_ofQualified q kind,
      rfl⟩
  · rw [Option.eq_none_iff_forall_ne_some]
    intro t ht
    obtain ⟨q, kind, hq, -, rfl | rfl⟩ := type?_ofDeclarations.mp ht
    · exact (hname q kind hq).1 rfl
    · exact (hname name kind hq).2 rfl
  · intro before m after q kind spelling hds hq hm hspelling
    exact agree_respelled hds hq hm hspelling
  · rintro m others ds' (hmoves | hmoves)
    · exact ⟨hmoves.agree, hmoves.sameNames.typeOf, hmoves.perm_memberGroup⟩
    · refine ⟨fun h => (hmoves.agree fun m' hm' => ?_).symm, hmoves.sameNames.symm.typeOf,
        fun call => (hmoves.perm_memberGroup call).symm⟩
      simpa only [IsOverload, hmoves.sameNames.declaring] using h m' hm'

/-- A method is declared before its type, which takes the place of another of its simple name. -/
def redeclared : List Declaration :=
  [.type "A.I" .classType, .method ⟨"I", "M", [⟨"a", "int"⟩]⟩, .type "N.I" .interfaceType]

theorem survives_redeclared {q : String} {kind : TypeKind} :
    Survives redeclared q kind ↔ q = "N.I" ∧ kind = .interfaceType := by
  have hredeclared : redeclared = [.type "A.I" .classType] ++
    [.method ⟨"I", "M", [⟨"a", "int"⟩]⟩] ++ [.type "N.I" .interfaceType] := rfl
  have hname : simpleName "N.I" = simpleName "A.I" := by decide
  rw [hredeclared, survives_concat, survives_concat, ← List.nil_append [Declaration.type _ _],
    survives_concat]
  constructor
  · rintro (heq | ⟨heq | ⟨heq | ⟨hnil, -⟩, -⟩, hlater⟩)
    · cases heq
      exact ⟨rfl, rfl⟩
    · cases heq
    · cases heq
      exact absurd hname (hlater _ _ rfl)
    · exact absurd hnil not_survives_nil
  · rintro ⟨rfl, rfl⟩
    exact .inl rfl

theorem found_under_both_names_redeclared : Survives redeclared "N.I" .interfaceType ∧
    (ofDeclarations redeclared).type? "I" = some (.ofQualified "N.I" .interfaceType) ∧
    (ofDeclarations redeclared).type? "A.I" = none ∧
    Agree (ofDeclarations redeclared) (ofDeclarations [.type "A.I" .classType,
      .method ⟨"N.I", "M", [⟨"a", "int"⟩]⟩, .type "N.I" .interfaceType]) := by
  have hq : Survives redeclared "N.I" .interfaceType := survives_redeclared.mpr ⟨rfl, rfl⟩
  have hsimple : simpleName "N.I" = "I" := by decide
  obtain ⟨hfound, hnone, hspelled, -⟩ := found_under_both_names redeclared
  refine ⟨hq, hsimple ▸ (hfound _ _ hq).1, hnone _ fun q kind h => ?_, ?_⟩
  · obtain ⟨rfl, rfl⟩ := survives_redeclared.mp h
    decide
  · exact hspelled [.type "A.I" .classType] _ _ _ _ "N.I" rfl hq (.inl hsimple.symm) (.inr rfl)

/-- Two overloads are declared before their type. -/
def overloadsFirst : List Declaration :=
  [.method ⟨"I", "M", [⟨"a", "int"⟩]⟩, .method ⟨"I", "M", [⟨"a", "bool"⟩]⟩,
    .type "I" .interfaceType, .localVariable "x" "I"]

/-- The same declarations, the first overload behind the type. -/
def overloadBehind : List Declaration :=
  [.method ⟨"I", "M", [⟨"a", "bool"⟩]⟩, .type "I" .interfaceType,
    .method ⟨"I", "M", [⟨"a", "int"⟩]⟩, .localVariable "x" "I"]

/-- A method that is moved behind its type, over one of its overloads, changes the answer about a
call of it. -/
theorem memberGroup_overloadBehind : Survives overloadsFirst "I" .interfaceType ∧
    MovesBehind ⟨"I", "M", [⟨"a", "int"⟩]⟩
      [.method ⟨"I", "M", [⟨"a", "bool"⟩]⟩, .type "I" .interfaceType] overloadsFirst
      overloadBehind ∧
    Grammar.document "x.M();" = .ok Offer.overloadedCall.root ∧
    (ofDeclarations overloadsFirst).memberGroup Offer.overloadedCall =
      [⟨"I", "M", [⟨"a", "int"⟩]⟩, ⟨"I", "M", [⟨"a", "bool"⟩]⟩] ∧
    (ofDeclarations overloadBehind).memberGroup Offer.overloadedCall =
      [⟨"I", "M", [⟨"a", "bool"⟩]⟩, ⟨"I", "M", [⟨"a", "int"⟩]⟩] :=
  ⟨⟨[.method ⟨"I", "M", [⟨"a", "int"⟩]⟩, .method ⟨"I", "M", [⟨"a", "bool"⟩]⟩],
      [.localVariable "x" "I"], rfl, by simp⟩,
    ⟨[], [.localVariable "x" "I"], rfl, rfl⟩, rfl, by decide +kernel, by decide +kernel⟩

end Scope

end CallFill
