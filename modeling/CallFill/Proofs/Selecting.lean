import CallFill.Proofs.Candidates
import CallFill.Proofs.Spans
import CallFill.Proofs.Splice
import CallFill.Tree.Selection

/-!
# What a selection hits

The search goes to the first child that holds the selection, so it reaches a place exactly when
every node on the way there is the first child to hold it.  A sibling on the left can hold only a
caret right behind it.  So a selection within the empty parentheses of a call of a member finds
their list, the caret behind the callee apart, and no other selection has a candidate.
-/

namespace CallFill

open CallFill.Text CallFill.Tree

namespace Place

/-! ## Going down -/

/-- The place that the search goes down to. -/
def deepest (s : Span) (p : Place) : Place := deepestFrom s p.above p.focus

/-- The place has a text, and the selection lies in it. -/
def holds (s : Span) (p : Place) : Bool := p.span.contains s && !p.span.isEmpty

theorem deepestAmong_eq (s : Span) (k : NodeKind) (above : List Frame) (before cs : List Tree) :
    deepestAmong s k above before cs =
      ((childrenFrom k above before cs).find? (holds s)).map (deepest s) := by
  induction cs generalizing before with
  | nil => simp [deepestAmong, childrenFrom]
  | cons c cs ih =>
      rw [deepestAmong, childrenFrom, ih]
      cases hc : c.isNode with
      | false => simp
      | true =>
          by_cases hh : holds s ⟨c, ⟨k, before, cs⟩ :: above⟩ = true
          · have hh' := hh
            rw [holds] at hh'
            simp [hh, hh', deepest]
          · have hh' := hh
            rw [holds] at hh'
            simp [hh, hh']

/-- One step of the search. -/
theorem deepest_eq (s : Span) (p : Place) :
    deepest s p = match p.children.find? (holds s) with
      | some q => deepest s q
      | none => p := by
  obtain ⟨t, above⟩ := p
  cases t with
  | token t => simp [deepest, deepestFrom, children]
  | node k cs =>
      rw [deepest, deepestFrom, deepestAmong_eq]
      simp only [children]
      cases (childrenFrom k above [] cs).find? (holds s) <;> rfl

theorem deepest_of_first {s : Span} {p q : Place} {qs : List Place} (h : p.children = q :: qs)
    (hq : q.holds s = true) : deepest s p = deepest s q := by
  rw [deepest_eq, h, List.find?_cons_of_pos hq]

theorem deepest_of_none {s : Span} {p : Place} (h : p.children = []) : deepest s p = p := by
  rw [deepest_eq, h, List.find?_nil]

theorem holds_iff {s : Span} {p : Place} :
    p.holds s = true ↔ p.span.contains s = true ∧ p.text ≠ "" := by
  rw [holds, Bool.and_eq_true, Bool.not_eq_true', ← Bool.not_eq_true, isEmpty_span]

theorem sizeOf_child {p q : Place} (h : q ∈ p.children) : sizeOf q.focus < sizeOf p.focus := by
  obtain ⟨-, hparent⟩ := mem_children.mp h
  obtain ⟨t, _ | ⟨f, fs⟩⟩ := q
  · cases hparent
  · obtain rfl : _ = p := by simpa using hparent
    have hmem : t ∈ f.before.reverse ++ t :: f.after := by simp
    have hlt := List.sizeOf_lt_of_mem hmem
    simp only [Frame.fill, Tree.node.sizeOf_spec]
    omega

/-- The search ends where it began or at the first child of its parent to hold the selection. -/
theorem deepest_eq_or (s : Span) (p : Place) : deepest s p = p ∨ ∃ q : Place,
    q.root = p.root ∧ q.children.find? (holds s) = some (deepest s p) := by
  induction hn : sizeOf p.focus using Nat.strongRecOn generalizing p with
  | ind n ih =>
      cases hfind : p.children.find? (holds s) with
      | none => exact .inl (by rw [deepest_eq, hfind])
      | some q =>
          have hmem := List.mem_of_find?_eq_some hfind
          have hdeep : deepest s p = deepest s q := by rw [deepest_eq, hfind]
          rw [hdeep]
          rcases ih _ (hn ▸ sizeOf_child hmem) q rfl with hq | ⟨r, hroot, hr⟩
          · exact .inr ⟨p, rfl, by rw [hfind, hq]⟩
          · exact .inr ⟨r, hroot.trans (root_of_parent? (mem_children.mp hmem).2), hr⟩

theorem root_deepest (s : Span) (p : Place) : (deepest s p).root = p.root := by
  rcases deepest_eq_or s p with h | ⟨q, hroot, hfind⟩
  · rw [h]
  · have hmem := List.mem_of_find?_eq_some hfind
    exact (root_of_parent? (mem_children.mp hmem).2).trans hroot

theorem isNode_deepest (s : Span) {p : Place} (hp : p.focus.isNode = true) :
    (deepest s p).focus.isNode = true := by
  rcases deepest_eq_or s p with h | ⟨q, -, hfind⟩
  · rwa [h]
  · exact (mem_children.mp (List.mem_of_find?_eq_some hfind)).1

/-- The search reaches a place when every step on the way is to the first child that holds the
selection. -/
theorem deepest_root {s : Span} {q : Place} (h : ∀ r ∈ q.ancestors, ∀ p, r.parent? = some p →
    p.children.find? (holds s) = some r) : deepest s (ofRoot q.root) = deepest s q := by
  obtain ⟨t, fs⟩ := q
  induction fs generalizing t with
  | nil => rfl
  | cons f fs ih =>
      have hparent := ih (f.fill t) fun r hr => h r (List.mem_cons_of_mem _ hr)
      have hstep := h ⟨t, f :: fs⟩ List.mem_cons_self ⟨f.fill t, fs⟩ rfl
      rw [root, fillAll_cons]
      refine hparent.trans ?_
      rw [deepest_eq, hstep]

/-- A child is the first to hold the selection when no child that ends before it does. -/
theorem find?_children {s : Span} {p r : Place} (hparent : r.parent? = some p)
    (hnode : r.focus.isNode = true) (hholds : r.holds s = true)
    (hleft : ∀ q ∈ p.children, q.fullSpan.stop ≤ r.start → q.holds s = false) :
    p.children.find? (holds s) = some r := by
  obtain ⟨t, _ | ⟨⟨k, before, after⟩, fs⟩⟩ := r
  · cases hparent
  · obtain rfl : _ = p := by simpa using hparent
    obtain ⟨lefts, hchildren, hstop⟩ := childrenFrom_append k fs [] before.reverse (t :: after)
    have hchildren : children ⟨Frame.fill ⟨k, before, after⟩ t, fs⟩ =
        lefts ++ ⟨t, ⟨k, before, after⟩ :: fs⟩ ::
          childrenFrom k fs (t :: before) after := by
      simpa [children, Frame.fill, childrenFrom, show t.isNode = true from hnode] using hchildren
    rw [hchildren] at hleft ⊢
    refine List.find?_eq_some_iff_append.mpr ⟨hholds, lefts, _, rfl, fun q hq => ?_⟩
    have hle : q.fullSpan.stop ≤ start ⟨t, ⟨k, before, after⟩ :: fs⟩ := by
      simpa [start, Frame.offset] using hstop q hq
    simp [hleft q (List.mem_append_left _ hq) hle]

/-! ## Going back up -/

theorem outermostFrom_mem (t : Tree) (fs : List Frame) :
    outermostFrom t fs ∈ ancestors ⟨t, fs⟩ := by
  induction fs generalizing t with
  | nil => exact mem_ancestors_self _
  | cons f fs ih =>
      rw [outermostFrom]
      split
      · exact List.mem_cons_of_mem _ (ih (f.fill t))
      · exact mem_ancestors_self _

theorem find?_eq_some {p n : Place} {s : Span} : p.find? s = some n ↔
    p.fullSpan.contains s = true ∧ outermostFrom (deepest s p).focus (deepest s p).above = n := by
  rw [find?]
  split
  · next h => simp [h, deepest]
  · next h => simp [h]

/-- A place that holds the selection finds something. -/
theorem find?_of_holds {p : Place} {s : Span} (h : p.holds s = true) :
    p.find? s = some (outermostFrom (deepest s p).focus (deepest s p).above) := by
  have hspan := Span.contains_iff.mp (holds_iff.mp h).1
  have hfull := Span.contains_iff.mp p.fullSpan_contains_span
  exact find?_eq_some.mpr ⟨Span.contains_iff.mpr (by omega), rfl⟩

/-- What is found is a node of the tree at or above the place that the search goes down to. -/
theorem mem_ancestors_of_find? {p n : Place} {s : Span} (h : p.find? s = some n) :
    n ∈ (deepest s p).ancestors := by
  obtain ⟨-, rfl⟩ := find?_eq_some.mp h
  exact outermostFrom_mem _ _

theorem isNode_of_find? {p n : Place} {s : Span} (hp : p.focus.isNode = true)
    (h : p.find? s = some n) : n.focus.isNode = true :=
  isNode_of_mem_ancestors (isNode_deepest s hp) (mem_ancestors_of_find? h)

theorem root_of_find? {p n : Place} {s : Span} (h : p.find? s = some n) : n.root = p.root :=
  (root_of_mem_ancestors (mem_ancestors_of_find? h)).trans (root_deepest s p)

/-! ## Spans on the way up -/

/-- A place with tokens lies within every place above it. -/
theorem span_ancestor_contains {p q : Place} (hq : q.focus.tokens ≠ []) (h : p ∈ q.ancestors) :
    p.span.start ≤ q.span.start ∧ q.span.stop ≤ p.span.stop := by
  obtain ⟨t, fs⟩ := q
  induction fs generalizing t with
  | nil =>
      obtain rfl : p = ⟨t, []⟩ := by simpa [ancestors, ancestorsFrom] using h
      exact ⟨Nat.le_refl _, Nat.le_refl _⟩
  | cons f fs ih =>
      rw [ancestors_cons] at h
      rcases List.mem_cons.mp h with rfl | h
      · exact ⟨Nat.le_refl _, Nat.le_refl _⟩
      · have hfill : (f.fill t).tokens ≠ [] := Frame.tokens_fill_ne_nil hq
        have hparent := Span.contains_iff.mp (@span_parent_contains t f fs hq)
        have habove := ih (f.fill t) hfill h
        omega

/-! ## From the root -/

theorem tokens_ne_nil_of_text {p : Place} (h : p.text ≠ "") : p.focus.tokens ≠ [] := by
  intro hnil
  rw [text, Tree.text, hnil] at h
  exact h rfl

/-- What is above a place that holds the selection holds it too. -/
theorem holds_of_mem_ancestors {s : Span} {p q : Place} (hq : q.holds s = true)
    (h : p ∈ q.ancestors) : p.holds s = true := by
  obtain ⟨hspan, htext⟩ := holds_iff.mp hq
  rw [Span.contains_iff] at hspan
  have habove := span_ancestor_contains (tokens_ne_nil_of_text htext) h
  have hpos := span_start_lt_stop htext
  exact holds_iff.mpr ⟨Span.contains_iff.mpr (by omega), text_ne_empty_of_lt (by omega)⟩

/-- The search from the root comes to a node that holds the selection, unless the selection ends
where the node begins, which may be where a sibling ends. -/
theorem deepest_root_of_lt {s : Span} {q : Place} (hq : q.focus.isNode = true)
    (hholds : q.holds s = true) (hlt : q.start < s.stop) :
    deepest s (ofRoot q.root) = deepest s q := by
  refine deepest_root fun r hr p hp => ?_
  refine find?_children hp (isNode_of_mem_ancestors hq hr) (holds_of_mem_ancestors hholds hr) ?_
  intro x _ hleft
  rw [← Bool.not_eq_true, holds_iff]
  rintro ⟨hcontains, -⟩
  rw [Span.contains_iff] at hcontains
  have hstart := (fullSpan_ancestor_contains hr).1
  have hfull := Span.contains_iff.mp x.fullSpan_contains_span
  omega

theorem find?_root_of_lt {s : Span} {q : Place} (hq : q.focus.isNode = true)
    (hholds : q.holds s = true) (hlt : q.start < s.stop) :
    (ofRoot q.root).find? s = q.find? s := by
  rw [find?_of_holds hholds, ← deepest_root_of_lt hq hholds hlt]
  exact find?_of_holds (holds_of_mem_ancestors hholds (ofRoot_mem_ancestors q))

end Place

end CallFill
