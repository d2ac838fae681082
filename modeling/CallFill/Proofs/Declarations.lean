import CallFill.Binding.Scope
import CallFill.Proofs.QualifiedNames

/-!
# Declarations

A scope comes from declarations, one after the other.  Whatever their order, no two of its types
have one simple name, so each of them is found by its simple name and by its qualified name, and a
method belongs to a type exactly when the name of its declaring type is found to be that type.
-/

namespace CallFill

/-- What can be declared in a scope. -/
inductive Declaration where
  | type (qualified : String) (kind : TypeKind)
  | method (m : Method)
  | localVariable (name type : String)
  | reference (library : String)
deriving DecidableEq, Repr

namespace Declaration

def method? : Declaration → Option Method
  | .method m => some m
  | _ => none

def reference? : Declaration → Option String
  | .reference library => some library
  | _ => none

end Declaration

namespace Scope

def declare (s : Scope) : Declaration → Scope
  | .type qualified kind => s.declareType qualified kind
  | .method m => s.declareMethod m
  | .localVariable name type => s.declareLocal name type
  | .reference library => s.reference library

def ofDeclarations (ds : List Declaration) : Scope := ds.foldl declare empty

/-! ## Methods and references -/

theorem methods_declare (s : Scope) (d : Declaration) :
    (s.declare d).methods = s.methods ++ d.method?.toList := by
  cases d <;> simp [declare, declareType, declareMethod, declareLocal, reference,
    Declaration.method?]

theorem references_declare (s : Scope) (d : Declaration) :
    (s.declare d).references = s.references ++ d.reference?.toList := by
  cases d <;> simp [declare, declareType, declareMethod, declareLocal, reference,
    Declaration.reference?]

/-- A field that each declaration extends holds what the declarations give it, in their order. -/
theorem foldl_declare_eq {α : Type} {field : Scope → List α} {part : Declaration → Option α}
    (h : ∀ s d, field (s.declare d) = field s ++ (part d).toList) (ds : List Declaration)
    (s : Scope) : field (ds.foldl declare s) = field s ++ ds.filterMap part := by
  induction ds generalizing s with
  | nil => simp
  | cons d ds ih =>
    rw [List.foldl_cons, ih, h, List.append_assoc]
    cases hd : part d <;> simp [hd]

@[simp] theorem methods_ofDeclarations (ds : List Declaration) :
    (ofDeclarations ds).methods = ds.filterMap Declaration.method? :=
  foldl_declare_eq methods_declare ds empty

@[simp] theorem references_ofDeclarations (ds : List Declaration) :
    (ofDeclarations ds).references = ds.filterMap Declaration.reference? :=
  foldl_declare_eq references_declare ds empty

/-! ## Types -/

/-- Every type comes from a qualified name, and its simple name is its own. -/
structure Distinct (s : Scope) : Prop where
  qualified : ∀ t ∈ s.types, ∃ qualified kind, t = .ofQualified qualified kind
  eq_of_name_eq : ∀ t ∈ s.types, ∀ u ∈ s.types, t.name = u.name → t = u

theorem distinct_empty : empty.Distinct := ⟨by simp [empty], by simp [empty]⟩

theorem Distinct.declareType {s : Scope} (h : s.Distinct) (qualified : String)
    (kind : TypeKind) : (s.declareType qualified kind).Distinct := by
  constructor
  · intro t ht
    rcases List.mem_cons.mp ht with rfl | ht
    · exact ⟨qualified, kind, rfl⟩
    · exact h.qualified t (List.mem_filter.mp ht).1
  · -- the types that stay have other names than the new one
    intro t ht u hu hname
    simp only [Scope.declareType, List.mem_cons, List.mem_filter, bne_iff_ne] at ht hu
    rcases ht with rfl | ⟨ht, htname⟩ <;> rcases hu with rfl | ⟨hu, huname⟩
    · rfl
    · exact absurd hname.symm huname
    · exact absurd hname htname
    · exact h.eq_of_name_eq t ht u hu hname

theorem Distinct.declare {s : Scope} (h : s.Distinct) (d : Declaration) :
    (s.declare d).Distinct := by
  cases d with
  | type qualified kind => exact h.declareType qualified kind
  | method m => exact ⟨h.qualified, h.eq_of_name_eq⟩
  | localVariable name type => exact ⟨h.qualified, h.eq_of_name_eq⟩
  | reference library => exact ⟨h.qualified, h.eq_of_name_eq⟩

theorem Distinct.foldl_declare {s : Scope} (h : s.Distinct) (ds : List Declaration) :
    (ds.foldl Scope.declare s).Distinct := by
  induction ds generalizing s with
  | nil => exact h
  | cons d ds ih => exact ih (h.declare d)

theorem distinct_ofDeclarations (ds : List Declaration) : (ofDeclarations ds).Distinct :=
  distinct_empty.foldl_declare ds

/-! ## Looking types up -/

variable {s : Scope} {t : TypeSymbol}

theorem mem_types_of_type? {name : String} (h : s.type? name = some t) : t ∈ s.types := by
  rcases Option.or_eq_some_iff.mp h with h | ⟨-, h⟩ <;> exact List.mem_of_find?_eq_some h

/-- A qualified name is not taken for the simple name of another type. -/
theorem Distinct.eq_of_name_eq_display (h : s.Distinct) (ht : t ∈ s.types) {u : TypeSymbol}
    (hu : u ∈ s.types) (hname : u.name = t.display) : u = t := by
  obtain ⟨qualified, kind, rfl⟩ := h.qualified t ht
  obtain ⟨qualified', kind', rfl⟩ := h.qualified u hu
  rw [TypeSymbol.display_ofQualified] at hname
  have hpart : qualified ∈ Symbol.segments qualified' :=
    hname ▸ TypeSymbol.name_mem_segments qualified' kind'
  refine h.eq_of_name_eq _ hu _ ht ?_
  rw [hname, TypeSymbol.name_ofQualified_segment hpart]

theorem Distinct.eq_of_display_eq (h : s.Distinct) (ht : t ∈ s.types) {u : TypeSymbol}
    (hu : u ∈ s.types) (hdisplay : u.display = t.display) : u = t := by
  refine h.eq_of_name_eq _ hu _ ht ?_
  obtain ⟨qualified, kind, rfl⟩ := h.qualified t ht
  obtain ⟨qualified', kind', rfl⟩ := h.qualified u hu
  rw [TypeSymbol.display_ofQualified, TypeSymbol.display_ofQualified] at hdisplay
  rw [hdisplay]
  rfl

/-- A type is found by its qualified name. -/
theorem Distinct.type?_display (h : s.Distinct) (ht : t ∈ s.types) :
    s.type? t.display = some t := by
  rw [type?, Option.or_eq_some_iff]
  cases hname : s.types.find? (·.name == t.display) with
  | some u =>
    have hu := List.mem_of_find?_eq_some hname
    have heq : u.name = t.display := by simpa using List.find?_some hname
    exact .inl (by rw [h.eq_of_name_eq_display ht hu heq])
  | none =>
    refine .inr ⟨rfl, ?_⟩
    cases hdisplay : s.types.find? (·.display == t.display) with
    | some u =>
      have hu := List.mem_of_find?_eq_some hdisplay
      have heq : u.display = t.display := by simpa using List.find?_some hdisplay
      rw [h.eq_of_display_eq ht hu heq]
    | none => exact absurd (by simp) (List.find?_eq_none.mp hdisplay t ht)

/-- A method belongs to a type when the name of its declaring type is found to be the type. -/
theorem Distinct.declaring_eq_iff (h : s.Distinct) (ht : t ∈ s.types) {m : Method} :
    s.declaring m = t.display ↔ s.type? m.declaring = some t := by
  rw [declaring]
  cases hm : s.type? m.declaring with
  | some u =>
    refine ⟨fun heq => ?_, fun heq => by rw [Option.some.inj heq]⟩
    rw [h.eq_of_display_eq ht (mem_types_of_type? hm) heq]
  | none =>
    refine ⟨fun heq => ?_, nofun⟩
    have hname : m.declaring = t.display := heq
    rw [hname, h.type?_display ht] at hm
    exact nomatch hm

/-- The type of an expression is a type of the scope. -/
theorem mem_types_of_typeWithin {steps : Nat} {e : Place} (h : s.typeWithin steps e = some t) :
    t ∈ s.types := by
  -- each step looks a type up, goes on to another expression, or finds nothing
  fun_induction typeWithin s steps e <;> first | exact mem_types_of_type? h | grind

theorem mem_types_of_typeOf {e : Place} (h : s.typeOf e = some t) : t ∈ s.types :=
  mem_types_of_typeWithin h

end Scope

/-- The methods of a name that are declared for a type, in the order of their declarations. -/
def Declaration.overloads (ds : List Declaration) (type : TypeSymbol) (name : String) :
    List Method :=
  ((ds.filterMap method?).filter fun m =>
    m.name = name ∧ (Scope.ofDeclarations ds).type? m.declaring = some type).map
      fun m => { m with declaring := type.display }

theorem Scope.methodsOf_ofDeclarations {ds : List Declaration} {t : TypeSymbol}
    (ht : t ∈ (ofDeclarations ds).types) (name : String) :
    (ofDeclarations ds).methodsOf t name = Declaration.overloads ds t name := by
  have hdeclaring (m : Method) := (distinct_ofDeclarations ds).declaring_eq_iff ht (m := m)
  rw [methodsOf, Declaration.overloads, methods_ofDeclarations]
  simp only [← hdeclaring, Bool.decide_and]
  refine List.map_congr_left fun m hm => ?_
  have hm := (List.mem_filter.mp hm).2
  simp only [Bool.and_eq_true, beq_iff_eq] at hm
  rw [hm.2]

end CallFill
