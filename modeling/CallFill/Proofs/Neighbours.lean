import CallFill.Proofs.Around

/-!
# Places above and below

The children of a place are the places of nodes whose parent it is, its ancestors are those on the
way up, and the descendants of a root are all places of nodes in the tree.
-/

namespace CallFill.Place

@[simp] theorem parent?_cons (t : Tree) (f : Frame) (fs : List Frame) :
    parent? ⟨t, f :: fs⟩ = some ⟨f.fill t, fs⟩ := rfl

theorem start_cons (t : Tree) (f : Frame) (fs : List Frame) :
    start ⟨t, f :: fs⟩ = f.offset + start ⟨f.fill t, fs⟩ := rfl

theorem root_of_parent? {p q : Place} (h : q.parent? = some p) : q.root = p.root := by
  obtain ⟨t, _ | ⟨f, fs⟩⟩ := q
  · cases h
  · obtain rfl : _ = p := by simpa using h
    rfl

theorem isKind_iff {p : Place} {k : NodeKind} : p.isKind k = true ↔ ∃ cs, p.focus = .node k cs := by
  obtain ⟨t, fs⟩ := p
  cases t with
  | token t => simp [isKind, nodeKind?]
  | node j cs => simp [isKind, nodeKind?]

theorem eq_of_isKind {p : Place} {j k : NodeKind} (hj : p.isKind j = true)
    (hk : p.isKind k = true) : j = k :=
  Option.some.inj ((beq_iff_eq.mp hj).symm.trans (beq_iff_eq.mp hk))

/-! ## Children -/

theorem mem_childrenFrom {k : NodeKind} {above : List Frame} {before cs : List Tree} {q : Place} :
    q ∈ childrenFrom k above before cs ↔ ∃ xs c ys, cs = xs ++ c :: ys ∧ c.isNode = true ∧
      q = ⟨c, ⟨k, xs.reverse ++ before, ys⟩ :: above⟩ := by
  induction cs generalizing before with
  | nil => simp [childrenFrom]
  | cons d ds ih =>
      have hrest : q ∈ childrenFrom k above (d :: before) ds ↔
          ∃ xs c ys, ds = xs ++ c :: ys ∧ c.isNode = true ∧
            q = ⟨c, ⟨k, (d :: xs).reverse ++ before, ys⟩ :: above⟩ := by
        simpa using @ih (d :: before)
      have hstep : q ∈ childrenFrom k above before (d :: ds) ↔
          (d.isNode = true ∧ q = ⟨d, ⟨k, before, ds⟩ :: above⟩) ∨
            q ∈ childrenFrom k above (d :: before) ds := by
        cases hd : d.isNode <;> simp [childrenFrom, hd]
      rw [hstep, hrest]
      constructor
      · rintro (⟨hd, rfl⟩ | ⟨xs, c, ys, rfl, hc, rfl⟩)
        · exact ⟨[], d, ds, rfl, hd, rfl⟩
        · exact ⟨d :: xs, c, ys, rfl, hc, rfl⟩
      · rintro ⟨_ | ⟨x, xs⟩, c, ys, heq, hc, rfl⟩
        · obtain ⟨rfl, rfl⟩ := List.cons.inj heq
          exact .inl ⟨hc, rfl⟩
        · obtain ⟨rfl, rfl⟩ := List.cons.inj heq
          exact .inr ⟨xs, c, ys, rfl, hc, rfl⟩

/-- The children of a place are the nodes right below it. -/
theorem mem_children {p q : Place} :
    q ∈ p.children ↔ q.focus.isNode = true ∧ q.parent? = some p := by
  obtain ⟨t, above⟩ := p
  cases t with
  | token t =>
      obtain ⟨u, _ | ⟨f, fs⟩⟩ := q <;> simp [children, parent?, Frame.fill]
  | node k cs =>
      rw [children, mem_childrenFrom]
      constructor
      · rintro ⟨xs, c, ys, rfl, hc, rfl⟩
        exact ⟨hc, by simp [Frame.fill]⟩
      · obtain ⟨u, _ | ⟨⟨j, before, after⟩, fs⟩⟩ := q
        · rintro ⟨-, h⟩
          cases h
        · rintro ⟨hu, h⟩
          obtain ⟨⟨rfl, rfl⟩, rfl⟩ : (j = k ∧ before.reverse ++ u :: after = cs) ∧ fs = above := by
            simpa [Frame.fill] using h
          exact ⟨before.reverse, u, after, rfl, hu, by simp⟩

theorem map_focus_childrenFrom (k : NodeKind) (above : List Frame) (before cs : List Tree) :
    (childrenFrom k above before cs).map focus = cs.filter (·.isNode) := by
  induction cs generalizing before with
  | nil => rfl
  | cons c cs ih => cases hc : c.isNode <;> simp [childrenFrom, hc, ih]

/-- The children of a place are those of its tree that are nodes. -/
theorem map_focus_children (p : Place) :
    p.children.map focus = p.focus.children.filter (·.isNode) := by
  obtain ⟨t, above⟩ := p
  cases t with
  | token t => rfl
  | node k cs => exact map_focus_childrenFrom k above [] cs

theorem focus_of_mem_children {p q : Place} (h : q ∈ p.children) :
    q.focus ∈ p.focus.children ∧ q.focus.isNode = true := by
  have hmem : q.focus ∈ p.children.map focus := List.mem_map_of_mem h
  rwa [map_focus_children, List.mem_filter] at hmem

/-- The children on the left of one end before it begins. -/
theorem childrenFrom_append (k : NodeKind) (above : List Frame) (before xs ys : List Tree) :
    ∃ lefts, childrenFrom k above before (xs ++ ys) =
        lefts ++ childrenFrom k above (xs.reverse ++ before) ys ∧
      ∀ q ∈ lefts, q.fullSpan.stop ≤
        Tree.widthAll (xs.reverse ++ before) + Frame.offsetAll above := by
  induction xs generalizing before with
  | nil => exact ⟨[], by simp, by simp⟩
  | cons x xs ih =>
      obtain ⟨lefts, heq, hle⟩ := ih (x :: before)
      have hrev : (x :: xs).reverse ++ before = xs.reverse ++ x :: before := by simp
      rw [hrev]
      cases hx : x.isNode with
      | false => exact ⟨lefts, by simp [childrenFrom, hx, heq], hle⟩
      | true =>
          refine ⟨⟨x, ⟨k, before, xs ++ ys⟩ :: above⟩ :: lefts,
            by simp [childrenFrom, hx, heq], ?_⟩
          intro q hq
          rcases List.mem_cons.mp hq with rfl | hq
          · simp only [fullSpan, start, Frame.offsetAll_cons, Frame.offset, Tree.widthAll_append,
              Tree.widthAll_cons]
            omega
          · exact hle q hq

/-! ## Ancestors -/

theorem ancestors_cons (t : Tree) (f : Frame) (fs : List Frame) :
    ancestors ⟨t, f :: fs⟩ = ⟨t, f :: fs⟩ :: ancestors ⟨f.fill t, fs⟩ := rfl

theorem ancestors_of_parent? {p q : Place} (h : q.parent? = some p) :
    q.ancestors = q :: p.ancestors := by
  obtain ⟨t, _ | ⟨f, fs⟩⟩ := q
  · cases h
  · obtain rfl : ⟨f.fill t, fs⟩ = p := by simpa using h
    rfl

@[simp] theorem mem_ancestors_self (p : Place) : p ∈ p.ancestors := by
  obtain ⟨t, _ | ⟨f, fs⟩⟩ := p <;> simp [ancestors, ancestorsFrom]

theorem find?_ancestors_self {f : Place → Bool} {p : Place} (h : f p = true) :
    p.ancestors.find? f = some p := by
  obtain ⟨t, _ | ⟨g, gs⟩⟩ := p
  · exact List.find?_cons_of_pos h
  · exact List.find?_cons_of_pos h

/-- What is above a node is the node itself or has a child on the way down to it. -/
theorem eq_or_child_of_mem_ancestors {p q : Place} (hp : p.focus.isNode = true)
    (h : q ∈ p.ancestors) : q = p ∨ ∃ r ∈ q.children, r ∈ p.ancestors := by
  obtain ⟨t, fs⟩ := p
  induction fs generalizing t with
  | nil => exact .inl (by simpa [ancestors, ancestorsFrom] using h)
  | cons f fs ih =>
      rw [ancestors_cons] at h ⊢
      rcases List.mem_cons.mp h with rfl | h
      · exact .inl rfl
      · rcases ih (f.fill t) rfl h with rfl | ⟨r, hr, hmem⟩
        · exact .inr ⟨⟨t, f :: fs⟩, mem_children.mpr ⟨hp, rfl⟩, List.mem_cons_self⟩
        · exact .inr ⟨r, hr, List.mem_cons_of_mem _ hmem⟩

/-- Nothing is below a place without child nodes. -/
theorem eq_of_mem_ancestors {p q : Place} (hp : p.focus.isNode = true) (hq : q.children = [])
    (h : q ∈ p.ancestors) : q = p := by
  rcases eq_or_child_of_mem_ancestors hp h with rfl | ⟨r, hr, -⟩
  · rfl
  · rw [hq] at hr
    cases hr

theorem mem_ancestors_of_parent? {p q r : Place} (h : r ∈ q.ancestors) (hp : r.parent? = some p) :
    p ∈ q.ancestors := by
  obtain ⟨t, fs⟩ := q
  induction fs generalizing t with
  | nil =>
      obtain rfl : r = ⟨t, []⟩ := by simpa [ancestors, ancestorsFrom] using h
      cases hp
  | cons f fs ih =>
      rw [ancestors_cons] at h ⊢
      rcases List.mem_cons.mp h with rfl | h
      · obtain rfl : _ = p := by simpa using hp
        exact List.mem_cons_of_mem _ (mem_ancestors_self _)
      · exact List.mem_cons_of_mem _ (ih (f.fill t) h)

theorem isNode_of_mem_ancestors {p q : Place} (hq : q.focus.isNode = true) (h : p ∈ q.ancestors) :
    p.focus.isNode = true := by
  obtain ⟨t, fs⟩ := q
  induction fs generalizing t with
  | nil =>
      obtain rfl : p = ⟨t, []⟩ := by simpa [ancestors, ancestorsFrom] using h
      exact hq
  | cons f fs ih =>
      rw [ancestors_cons] at h
      rcases List.mem_cons.mp h with rfl | h
      · exact hq
      · exact ih (f.fill t) rfl h

theorem ofRoot_mem_ancestors (p : Place) : ofRoot p.root ∈ p.ancestors := by
  obtain ⟨t, fs⟩ := p
  induction fs generalizing t with
  | nil => exact mem_ancestors_self _
  | cons f fs ih => exact List.mem_cons_of_mem _ (ih (f.fill t))

/-! ## Descendants -/

mutual

theorem mem_ancestors_of_descendantsFrom {q : Place} (above : List Frame) : (t : Tree) →
    q ∈ descendantsFrom above t → q.focus.isNode = true ∧ ⟨t, above⟩ ∈ q.ancestors
  | .token t => by simp [descendantsFrom]
  | .node k cs => by
    intro h
    rcases List.mem_cons.mp h with rfl | h
    · exact ⟨rfl, mem_ancestors_self _⟩
    · simpa using mem_ancestors_of_descendantsAll k above [] cs h

theorem mem_ancestors_of_descendantsAll {q : Place} (k : NodeKind) (above : List Frame)
    (before : List Tree) : (cs : List Tree) → q ∈ descendantsAll k above before cs →
    q.focus.isNode = true ∧ ⟨.node k (before.reverse ++ cs), above⟩ ∈ q.ancestors
  | [] => by simp [descendantsAll]
  | c :: cs => by
    intro h
    rcases List.mem_append.mp h with h | h
    · obtain ⟨hq, hmem⟩ := mem_ancestors_of_descendantsFrom (⟨k, before, cs⟩ :: above) c h
      exact ⟨hq, mem_ancestors_of_parent? hmem rfl⟩
    · simpa using mem_ancestors_of_descendantsAll k above (c :: before) cs h

end

theorem mem_descendants_self {p : Place} (hp : p.focus.isNode = true) : p ∈ p.descendants := by
  obtain ⟨t, above⟩ := p
  cases t with
  | token t => cases hp
  | node k cs => exact List.mem_cons_self

theorem mem_descendantsAll_of_childrenFrom {k : NodeKind} {above : List Frame} {q : Place}
    {before cs : List Tree} (h : q ∈ childrenFrom k above before cs) :
    q ∈ descendantsAll k above before cs := by
  induction cs generalizing before with
  | nil => cases h
  | cons c cs ih =>
      rw [descendantsAll, List.mem_append]
      simp only [childrenFrom] at h
      split at h
      · next hc =>
        rcases List.mem_cons.mp h with rfl | h
        · exact .inl (mem_descendants_self (p := ⟨c, ⟨k, before, cs⟩ :: above⟩) hc)
        · exact .inr (ih h)
      · exact .inr (ih h)

mutual

theorem child_mem_descendantsFrom {q r : Place} (hq : q ∈ r.children) (above : List Frame) :
    (t : Tree) → r ∈ descendantsFrom above t → q ∈ descendantsFrom above t
  | .token t => by simp [descendantsFrom]
  | .node k cs => by
    intro h
    rcases List.mem_cons.mp h with rfl | h
    · exact List.mem_cons_of_mem _ (mem_descendantsAll_of_childrenFrom hq)
    · exact List.mem_cons_of_mem _ (child_mem_descendantsAll hq k above [] cs h)

theorem child_mem_descendantsAll {q r : Place} (hq : q ∈ r.children) (k : NodeKind)
    (above : List Frame) (before : List Tree) : (cs : List Tree) →
    r ∈ descendantsAll k above before cs → q ∈ descendantsAll k above before cs
  | [] => by simp [descendantsAll]
  | c :: cs => by
    intro h
    rcases List.mem_append.mp h with h | h
    · exact List.mem_append_left _ (child_mem_descendantsFrom hq (⟨k, before, cs⟩ :: above) c h)
    · exact List.mem_append_right _ (child_mem_descendantsAll hq k above (c :: before) cs h)

end

/-- The nodes below a place are those that have it above them. -/
theorem mem_descendants {p q : Place} :
    q ∈ p.descendants ↔ q.focus.isNode = true ∧ p ∈ q.ancestors := by
  constructor
  · exact mem_ancestors_of_descendantsFrom p.above p.focus
  · rintro ⟨hq, h⟩
    obtain ⟨t, fs⟩ := q
    induction fs generalizing t with
    | nil =>
        obtain rfl : p = ⟨t, []⟩ := by simpa [ancestors, ancestorsFrom] using h
        exact mem_descendants_self hq
    | cons f fs ih =>
        rw [ancestors_cons] at h
        rcases List.mem_cons.mp h with rfl | h
        · exact mem_descendants_self hq
        · refine child_mem_descendantsFrom ?_ p.above p.focus (ih (f.fill t) rfl h)
          exact mem_children.mpr ⟨hq, rfl⟩

/-- The nodes of a tree are the places of nodes in it. -/
theorem mem_descendants_ofRoot {t : Tree} {q : Place} :
    q ∈ (ofRoot t).descendants ↔ q.focus.isNode = true ∧ q.root = t := by
  rw [mem_descendants]
  refine and_congr_right fun _ => ⟨fun h => (root_of_mem_ancestors h).symm, ?_⟩
  rintro rfl
  exact ofRoot_mem_ancestors q

end CallFill.Place
