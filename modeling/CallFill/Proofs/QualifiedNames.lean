import CallFill.Symbol.Type

/-!
# Qualified names

The segments of a qualified name, joined by dots, give the name back, so a type displays as the
name that it was declared with.  A segment has no dots to split at: it is its own only segment,
and a simple name never reads like a longer one.  Brackets need not balance for any of this; they
matter where segments are joined, since an open one keeps the dot behind a segment from ending it.
-/

namespace CallFill

namespace Symbol

/-! ## Reading one character -/

theorem segmentsFrom_dot (cs : List Char) :
    segmentsFrom 0 ('.' :: cs) = ([], (segmentsFrom 0 cs).1 :: (segmentsFrom 0 cs).2) := rfl

/-- A character that ends no segment belongs to the first one. -/
theorem segmentsFrom_cons_of_not {depth : Nat} {c : Char} (h : ¬ (c = '.' ∧ depth = 0))
    (cs : List Char) :
    segmentsFrom depth (c :: cs) = (c :: (segmentsFrom (depthAfter depth c) cs).1,
      (segmentsFrom (depthAfter depth c) cs).2) := by
  rw [segmentsFrom, if_neg (by simpa using h)]

/-! ## Splitting -/

theorem intercalate_segmentsFrom (depth : Nat) (cs : List Char) :
    ['.'].intercalate ((segmentsFrom depth cs).1 :: (segmentsFrom depth cs).2) = cs := by
  induction cs generalizing depth with
  | nil => rfl
  | cons c cs ih =>
    by_cases hdot : c = '.' ∧ depth = 0
    · obtain ⟨rfl, rfl⟩ := hdot
      rw [segmentsFrom_dot, List.intercalate_cons_cons, ih 0]
      rfl
    · have h := ih (depthAfter depth c)
      rw [segmentsFrom_cons_of_not hdot]
      cases hothers : (segmentsFrom (depthAfter depth c) cs).2 with
      | nil => simpa [hothers] using h
      | cons o os => simpa [hothers, List.intercalate_cons_cons] using h

/-- The segments of a qualified name with dots between them are the name. -/
theorem intercalate_segments (qualified : String) :
    ".".intercalate (segments qualified) = qualified := by
  rw [← String.toList_inj, String.toList_intercalate]
  simpa [segments, Function.comp_def] using intercalate_segmentsFrom 0 qualified.toList

/-- A segment read again, from the depth that it was read from, is not split. -/
theorem segmentsFrom_segment (depth : Nat) (cs : List Char) :
    segmentsFrom depth (segmentsFrom depth cs).1 = ((segmentsFrom depth cs).1, []) ∧
      ∀ o ∈ (segmentsFrom depth cs).2, segmentsFrom 0 o = (o, []) := by
  induction cs generalizing depth with
  | nil => exact ⟨rfl, by simp [segmentsFrom]⟩
  | cons c cs ih =>
    by_cases hdot : c = '.' ∧ depth = 0
    · obtain ⟨rfl, rfl⟩ := hdot
      rw [segmentsFrom_dot]
      refine ⟨rfl, fun o ho => ?_⟩
      rcases List.mem_cons.mp ho with rfl | ho
      · exact (ih 0).1
      · exact (ih 0).2 o ho
    · obtain ⟨hfirst, hothers⟩ := ih (depthAfter depth c)
      rw [segmentsFrom_cons_of_not hdot]
      exact ⟨by rw [segmentsFrom_cons_of_not hdot, hfirst], hothers⟩

theorem segments_ne_nil (qualified : String) : segments qualified ≠ [] := by simp [segments]

theorem segments_eq_singleton_iff {part : String} :
    segments part = [part] ↔ segmentsFrom 0 part.toList = (part.toList, []) := by
  simp [segments, Prod.ext_iff, ← String.toList_inj]

/-- A segment is its own only segment. -/
theorem segments_segment {qualified part : String} (h : part ∈ segments qualified) :
    segments part = [part] := by
  rw [segments_eq_singleton_iff]
  obtain ⟨hfirst, hothers⟩ := segmentsFrom_segment 0 qualified.toList
  simp only [segments, List.map_cons, List.mem_cons, List.mem_map] at h
  rcases h with rfl | ⟨o, ho, rfl⟩
  · simpa using hfirst
  · simpa using hothers o ho

/-! ## Depth -/

/-- The nesting depth after a text that is read from a given depth. -/
def depthFrom (depth : Nat) (cs : List Char) : Nat := cs.foldl depthAfter depth

@[simp] theorem depthFrom_nil (depth : Nat) : depthFrom depth [] = depth := rfl

/-- A text is one segment when no dot in it stands at depth zero. -/
theorem segmentsFrom_eq_self_iff {depth : Nat} {cs : List Char} :
    segmentsFrom depth cs = (cs, []) ↔
      ∀ before after, cs = before ++ '.' :: after → depthFrom depth before ≠ 0 := by
  induction cs generalizing depth with
  | nil => simp [segmentsFrom]
  | cons c cs ih =>
    by_cases hdot : c = '.' ∧ depth = 0
    · obtain ⟨rfl, rfl⟩ := hdot
      refine ⟨fun h => ?_, fun h => absurd rfl (h [] cs rfl)⟩
      simp [segmentsFrom_dot] at h
    · rw [segmentsFrom_cons_of_not hdot]
      constructor
      · intro h before after heq
        have hrest : segmentsFrom (depthAfter depth c) cs = (cs, []) := by
          simpa [Prod.ext_iff] using h
        cases before with
        | nil =>
          obtain ⟨rfl, -⟩ := List.cons.inj heq
          exact fun hzero => hdot ⟨rfl, hzero⟩
        | cons b before =>
          obtain ⟨rfl, hcs⟩ := List.cons.inj heq
          exact ih.mp hrest before after hcs
      · intro h
        have hrest : segmentsFrom (depthAfter depth c) cs = (cs, []) :=
          ih.mpr fun before after heq => h (c :: before) after (by rw [heq]; rfl)
        rw [hrest]

theorem forall_mem_dropLast_cons {α : Type} {p : α → Prop} {x : α} {xs : List α} :
    (∀ y ∈ (x :: xs).dropLast, p y) ↔ (xs ≠ [] → p x) ∧ ∀ y ∈ xs.dropLast, p y := by
  cases xs <;> simp

/-- The brackets of a segment are closed where the dot behind it is reached. -/
theorem depthFrom_segment (depth : Nat) (cs : List Char) :
    ((segmentsFrom depth cs).2 ≠ [] → depthFrom depth (segmentsFrom depth cs).1 = 0) ∧
      ∀ o ∈ (segmentsFrom depth cs).2.dropLast, depthFrom 0 o = 0 := by
  induction cs generalizing depth with
  | nil => simp [segmentsFrom]
  | cons c cs ih =>
    by_cases hdot : c = '.' ∧ depth = 0
    · obtain ⟨rfl, rfl⟩ := hdot
      rw [segmentsFrom_dot]
      exact ⟨fun _ => rfl, forall_mem_dropLast_cons.mpr (ih 0)⟩
    · rw [segmentsFrom_cons_of_not hdot]
      exact ih (depthAfter depth c)

theorem depthFrom_of_mem_dropLast {qualified part : String}
    (h : part ∈ (segments qualified).dropLast) : depthFrom 0 part.toList = 0 := by
  have hclosed : ∀ cs ∈ ((segmentsFrom 0 qualified.toList).1 ::
      (segmentsFrom 0 qualified.toList).2).dropLast, depthFrom 0 cs = 0 :=
    forall_mem_dropLast_cons.mpr (depthFrom_segment 0 qualified.toList)
  simp only [segments, ← List.map_dropLast, List.mem_map] at h
  obtain ⟨cs, hcs, rfl⟩ := h
  rw [String.toList_ofList]
  exact hclosed cs hcs

/-! ## Joining -/

/-- A segment is not split when more text follows it. -/
theorem segmentsFrom_append {depth : Nat} {cs : List Char} (h : segmentsFrom depth cs = (cs, []))
    (ds : List Char) :
    segmentsFrom depth (cs ++ ds) = (cs ++ (segmentsFrom (depthFrom depth cs) ds).1,
      (segmentsFrom (depthFrom depth cs) ds).2) := by
  induction cs generalizing depth with
  | nil => rfl
  | cons c cs ih =>
    by_cases hdot : c = '.' ∧ depth = 0
    · obtain ⟨rfl, rfl⟩ := hdot
      cases h
    · rw [segmentsFrom_cons_of_not hdot, Prod.mk.injEq, List.cons.injEq] at h
      rw [List.cons_append, segmentsFrom_cons_of_not hdot, ih (Prod.ext h.1.2 h.2)]
      rfl

theorem segmentsFrom_intercalate {cs : List Char} {others : List (List Char)}
    (hsegment : ∀ x ∈ cs :: others, segmentsFrom 0 x = (x, []))
    (hdepth : ∀ x ∈ (cs :: others).dropLast, depthFrom 0 x = 0) :
    segmentsFrom 0 (['.'].intercalate (cs :: others)) = (cs, others) := by
  induction others generalizing cs with
  | nil => simpa using hsegment cs List.mem_cons_self
  | cons o os ih =>
    obtain ⟨hcs, hothers⟩ := List.forall_mem_cons.mp hsegment
    obtain ⟨hclosed, hdepth⟩ := forall_mem_dropLast_cons.mp hdepth
    rw [List.intercalate_cons_cons, List.append_assoc, List.singleton_append,
      segmentsFrom_append hcs, hclosed (by simp), segmentsFrom_dot, ih hothers hdepth,
      List.append_nil]

/-- Parts with dots between them are split into these parts when each is a segment and all but the
last close their brackets, and only then. -/
theorem segments_intercalate_iff {parts : List String} (hne : parts ≠ []) :
    segments (".".intercalate parts) = parts ↔
      (∀ part ∈ parts, segments part = [part]) ∧
        ∀ part ∈ parts.dropLast, depthFrom 0 part.toList = 0 := by
  constructor
  · intro h
    refine ⟨fun part hpart => segments_segment (h.symm ▸ hpart), fun part hpart => ?_⟩
    exact depthFrom_of_mem_dropLast (h.symm ▸ hpart)
  · rintro ⟨hsegment, hdepth⟩
    obtain ⟨first, others, rfl⟩ := List.exists_cons_of_ne_nil hne
    have hsplit : segmentsFrom 0 (['.'].intercalate (first.toList :: others.map String.toList)) =
        (first.toList, others.map String.toList) := by
      refine segmentsFrom_intercalate ?_ ?_
      · rw [← List.map_cons, List.forall_mem_map]
        exact fun part hpart => segments_eq_singleton_iff.mp (hsegment part hpart)
      · rw [← List.map_cons, ← List.map_dropLast, List.forall_mem_map]
        exact hdepth
    simp [segments, hsplit]

end Symbol

namespace TypeSymbol

open CallFill.Symbol

/-- The simple name is the last segment and the namespaces are those before it. -/
theorem namespaces_append_name (qualified : String) (kind : TypeKind) :
    (ofQualified qualified kind).namespaces ++ [(ofQualified qualified kind).name] =
      segments qualified := by
  rw [ofQualified, List.getLastD_eq_getLast?, List.getLast?_eq_some_getLast (segments_ne_nil _)]
  exact List.dropLast_concat_getLast (segments_ne_nil _)

@[simp] theorem display_ofQualified (qualified : String) (kind : TypeKind) :
    (ofQualified qualified kind).display = qualified := by
  rw [display, namespaces_append_name, intercalate_segments]

theorem name_mem_segments (qualified : String) (kind : TypeKind) :
    (ofQualified qualified kind).name ∈ segments qualified := by
  simp [← namespaces_append_name qualified kind]

/-- A type declared under a segment alone has the segment as its simple name. -/
theorem name_ofQualified_segment {qualified part : String} (h : part ∈ segments qualified)
    (kind : TypeKind) : (ofQualified part kind).name = part := by
  simp [ofQualified, segments_segment h]

theorem ofQualified_eq_iff {qualified name : String} {namespaces : List String}
    {kind : TypeKind} :
    ofQualified qualified kind = ⟨name, kind, namespaces⟩ ↔
      segments qualified = namespaces ++ [name] := by
  rw [← namespaces_append_name qualified kind]
  constructor
  · intro h
    rw [h]
  · intro h
    obtain ⟨hnamespaces, hname⟩ := List.append_inj' h rfl
    rw [← hnamespaces, ← List.singleton_inj.mp hname]
    rfl

/-- A type displays as the name that it was declared with, and no dot of its simple name or of a
namespace stands outside of brackets.  Namespaces and a name with dots between them are read back
as these when each of them is a segment and the namespaces close their brackets, and only then. -/
theorem ofQualified_lossless (kind : TypeKind) :
    (∀ qualified, (ofQualified qualified kind).display = qualified ∧
      ∀ part ∈ (ofQualified qualified kind).namespaces ++ [(ofQualified qualified kind).name],
        ∀ before after, part.toList = before ++ '.' :: after → depthFrom 0 before ≠ 0) ∧
    ∀ namespaces name,
      ofQualified (".".intercalate (namespaces ++ [name])) kind = ⟨name, kind, namespaces⟩ ↔
        (∀ part ∈ namespaces ++ [name], segments part = [part]) ∧
          ∀ part ∈ namespaces, depthFrom 0 part.toList = 0 := by
  refine ⟨fun qualified => ⟨display_ofQualified qualified kind, fun part hpart => ?_⟩, ?_⟩
  · rw [namespaces_append_name] at hpart
    exact segmentsFrom_eq_self_iff.mp (segments_eq_singleton_iff.mp (segments_segment hpart))
  · intro namespaces name
    rw [ofQualified_eq_iff, segments_intercalate_iff (by simp), List.dropLast_concat]

/-- An empty segment, a bracket that closes nothing, and one that is never closed. -/
theorem ofQualified_lossless_unbalanced :
    "S<A.B>" ∈ (ofQualified ".>N.S<A.B>.T(." .interfaceType).namespaces ++
        [(ofQualified ".>N.S<A.B>.T(." .interfaceType).name] ∧
      "S<A.B>".toList = ['S', '<', 'A'] ++ '.' :: ['B', '>'] ∧
      depthFrom 0 ['S', '<', 'A'] ≠ 0 ∧
      ofQualified ".>N.S<A.B>.T(." .interfaceType =
        ⟨"T(.", .interfaceType, ["", ">N", "S<A.B>"]⟩ := by
  obtain ⟨hsplit, hjoin⟩ := ofQualified_lossless .interfaceType
  have hmem : "S<A.B>" ∈ (ofQualified ".>N.S<A.B>.T(." .interfaceType).namespaces ++
      [(ofQualified ".>N.S<A.B>.T(." .interfaceType).name] := by decide
  have hdot : "S<A.B>".toList = ['S', '<', 'A'] ++ '.' :: ['B', '>'] := by decide
  refine ⟨hmem, hdot, (hsplit _).2 _ hmem _ _ hdot, ?_⟩
  exact (hjoin ["", ">N", "S<A.B>"] "T(.").mpr (by decide)

end TypeSymbol

end CallFill
