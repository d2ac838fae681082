import CallFill.Proofs.Positions
import CallFill.Proofs.Selecting

/-!
# The innermost node of a selection

Siblings stand side by side, so of two nodes one is above the other or their full spans have no byte
in common.  The nodes whose spans contain a selection of one byte at least are thus all above the
innermost of them.  The search goes down to that node from wherever it starts and then up to the
highest node of the same span, which may be above the start.
-/

namespace CallFill

open CallFill.Text CallFill.Tree

/-! ## Nodes side by side -/

/-- Of two children of a node, the one of the smaller index ends before the other begins. -/
theorem Frame.offset_add_width_le {f g : Frame} {t u : Tree} (h : f.fill t = g.fill u)
    (hlt : f.index < g.index) : f.offset + t.width ≤ g.offset := by
  obtain ⟨-, hchildren⟩ := Tree.node.inj h
  simp only [index] at hlt
  rcases List.append_eq_append_iff.mp hchildren with ⟨xs, hbefore, htail⟩ | ⟨xs, hbefore, -⟩
  · cases xs with
    | nil =>
        have hlen := congrArg List.length hbefore
        simp at hlen
        omega
    | cons x xs =>
        obtain ⟨rfl, -⟩ := List.cons.inj htail
        have hwidth := congrArg widthAll hbefore
        simp only [widthAll_append, widthAll_reverse, widthAll_cons] at hwidth
        simp only [offset, hwidth]
        omega
  · have hlen := congrArg List.length hbefore
    simp at hlen
    omega

namespace Place

theorem eq_or_apart_of_parent? {p q r : Place} (hp : p.parent? = some r) (hq : q.parent? = some r) :
    p = q ∨ p.fullSpan.stop ≤ q.start ∨ q.fullSpan.stop ≤ p.start := by
  obtain ⟨t, _ | ⟨f, fs⟩⟩ := p
  · cases hp
  obtain ⟨u, _ | ⟨g, gs⟩⟩ := q
  · cases hq
  obtain rfl : ⟨f.fill t, fs⟩ = r := by simpa using hp
  obtain ⟨hfill, rfl⟩ := Place.mk.inj (by simpa using hq)
  simp only [fullSpan, start, Frame.offsetAll_cons]
  rcases Nat.lt_trichotomy f.index g.index with hlt | heq | hlt
  · have hle := Frame.offset_add_width_le hfill.symm hlt
    exact .inr (.inl (by omega))
  · obtain ⟨rfl, rfl⟩ := Frame.eq_of_fill_eq hfill.symm heq
    exact .inl rfl
  · have hle := Frame.offset_add_width_le hfill hlt
    exact .inr (.inr (by omega))

/-- Two nodes of a tree are one above the other or apart. -/
theorem nested_or_apart {p q : Place} (hp : p.focus.isNode = true) (hroot : p.root = q.root) :
    p ∈ q.ancestors ∨ q ∈ p.ancestors ∨ p.fullSpan.stop ≤ q.start ∨
      q.fullSpan.stop ≤ p.start := by
  obtain ⟨t, fs⟩ := q
  induction fs generalizing t with
  | nil =>
      obtain rfl : p.root = t := hroot
      exact .inr (.inl (ofRoot_mem_ancestors p))
  | cons f fs ih =>
      have hparent : parent? ⟨t, f :: fs⟩ = some ⟨f.fill t, fs⟩ := rfl
      have hwithin := fullSpan_ancestor_contains (mem_ancestors_of_parent?
        (mem_ancestors_self ⟨t, f :: fs⟩) hparent)
      rcases ih (f.fill t) hroot with habove | hbelow | hleft | hright
      · exact .inl (List.mem_cons_of_mem _ habove)
      · rcases eq_or_child_of_mem_ancestors hp hbelow with rfl | ⟨r, hr, hmem⟩
        · exact .inl (mem_ancestors_of_parent? (mem_ancestors_self _) hparent)
        · -- the child on the way down to `p` is the other place or beside it
          have hspan := fullSpan_ancestor_contains hmem
          rcases eq_or_apart_of_parent? (mem_children.mp hr).2 hparent with rfl | hleft | hright
          · exact .inr (.inl hmem)
          · exact .inr (.inr (.inl (by omega)))
          · exact .inr (.inr (.inr (by omega)))
      · exact .inr (.inr (.inl (by omega)))
      · exact .inr (.inr (.inr (by omega)))

/-- Nodes that share a byte of a selection are one above the other. -/
theorem nested_of_contains {p q : Place} {s : Span} (hp : p.focus.isNode = true)
    (hroot : p.root = q.root) (hs : s.start < s.stop) (hps : p.span.contains s = true)
    (hqs : q.span.contains s = true) : p ∈ q.ancestors ∨ q ∈ p.ancestors := by
  rw [Span.contains_iff] at hps hqs
  have hpfull := Span.contains_iff.mp p.fullSpan_contains_span
  have hqfull := Span.contains_iff.mp q.fullSpan_contains_span
  have hpstart : p.fullSpan.start = p.start := rfl
  have hqstart : q.fullSpan.start = q.start := rfl
  rcases nested_or_apart hp hroot with habove | hbelow | hleft | hright
  · exact .inl habove
  · exact .inr hbelow
  · omega
  · omega

theorem mem_ancestors_antisymm {p q : Place} (hp : p ∈ q.ancestors) (hq : q ∈ p.ancestors) :
    p = q := by
  refine eq_of_path_eq (root_of_mem_ancestors hp) ?_
  exact (path_prefix_of_mem_ancestors hp).eq_of_length_le
    (path_prefix_of_mem_ancestors hq).length_le

/-! ## The innermost node -/

/-- A node whose span contains the selection, below all others whose spans do. -/
structure Innermost (g : Tree) (s : Span) (q : Place) : Prop where
  mem : q ∈ (ofRoot g).descendants
  contains : q.span.contains s = true
  below : ∀ p ∈ (ofRoot g).descendants, p.span.contains s = true → p ∈ q.ancestors

/-- A node of the span, above all others of that span. -/
structure Outermost (g : Tree) (s : Span) (p : Place) : Prop where
  mem : p ∈ (ofRoot g).descendants
  span_eq : p.span = s
  above : ∀ q ∈ (ofRoot g).descendants, q.span = s → p ∈ q.ancestors

/-- So there is one at most. -/
theorem Innermost.unique {g : Tree} {s : Span} {p q : Place} (hp : Innermost g s p)
    (hq : Innermost g s q) : p = q :=
  mem_ancestors_antisymm (hq.below p hp.mem hp.contains) (hp.below q hq.mem hq.contains)

/-- The search goes down until no child holds the selection. -/
theorem find?_children_deepest (s : Span) (p : Place) :
    (deepest s p).children.find? (holds s) = none := by
  induction hn : sizeOf p.focus using Nat.strongRecOn generalizing p with
  | ind n ih =>
      rw [deepest_eq]
      cases hfind : p.children.find? (holds s) with
      | none => exact hfind
      | some q => exact ih _ (hn ▸ sizeOf_child (List.mem_of_find?_eq_some hfind)) q rfl

theorem contains_deepest {s : Span} {p : Place} (hp : p.span.contains s = true) :
    (deepest s p).span.contains s = true := by
  rcases deepest_eq_or s p with h | ⟨q, -, hfind⟩
  · rwa [h]
  · exact (holds_iff.mp (List.find?_some hfind)).1

variable {g : Tree} {s : Span}

theorem holds_of_contains {p : Place} (hs : s.start < s.stop) (h : p.span.contains s = true) :
    p.holds s = true := by
  have hspan := Span.contains_iff.mp h
  exact holds_iff.mpr ⟨h, text_ne_empty_of_lt (by omega)⟩

/-- Wherever the search starts, it goes down to the innermost node. -/
theorem deepest_innermost (hs : s.start < s.stop) {n : Place}
    (hn : n ∈ (ofRoot g).descendants) (hns : n.span.contains s = true) :
    Innermost g s (deepest s n) := by
  obtain ⟨hnode, hroot⟩ := mem_descendants_ofRoot.mp hn
  have hdeep : deepest s n ∈ (ofRoot g).descendants :=
    mem_descendants_ofRoot.mpr ⟨isNode_deepest s hnode, (root_deepest s n).trans hroot⟩
  refine ⟨hdeep, contains_deepest hns, fun p hp hps => ?_⟩
  obtain ⟨hpnode, hproot⟩ := mem_descendants_ofRoot.mp hp
  have hsame : p.root = (deepest s n).root := by
    rw [hproot, (mem_descendants_ofRoot.mp hdeep).2]
  rcases nested_of_contains hpnode hsame hs hps (contains_deepest hns) with habove | hbelow
  · exact habove
  · rcases eq_or_child_of_mem_ancestors hpnode hbelow with heq | ⟨r, hr, hmem⟩
    · exact heq ▸ mem_ancestors_self _
    · -- the child on the way down to `p` would hold the selection too
      have hholds : r.holds s = true := holds_of_mem_ancestors (holds_of_contains hs hps) hmem
      have hnone := List.find?_eq_none.mp (find?_children_deepest s n) r hr
      exact absurd hholds hnone

/-! ## The outermost node of a span -/

theorem span_outermostFrom (t : Tree) (fs : List Frame) :
    (outermostFrom t fs).span = span ⟨t, fs⟩ := by
  induction fs generalizing t with
  | nil => rfl
  | cons f fs ih =>
      rw [outermostFrom]
      split
      · next hspan => rw [ih, hspan]
      · rfl

/-- The way up passes all places of the same span. -/
theorem outermostFrom_mem_ancestors {t : Tree} {fs : List Frame} (ht : t.tokens ≠ []) {q : Place}
    (hq : q ∈ ancestors ⟨t, fs⟩) (hspan : q.span = span ⟨t, fs⟩) :
    outermostFrom t fs ∈ q.ancestors := by
  induction fs generalizing t with
  | nil =>
      obtain rfl : q = ⟨t, []⟩ := by simpa [ancestors, ancestorsFrom] using hq
      exact mem_ancestors_self _
  | cons f fs ih =>
      have hfill : (f.fill t).tokens ≠ [] := Frame.tokens_fill_ne_nil ht
      rw [ancestors_cons] at hq
      rw [outermostFrom]
      rcases List.mem_cons.mp hq with rfl | hq
      · split
        · exact List.mem_cons_of_mem _ (outermostFrom_mem (f.fill t) fs)
        · exact mem_ancestors_self _
      · -- the parent lies between two places of the same span, so it has that span
        have hchild := Span.contains_iff.mp (@span_parent_contains t f fs ht)
        have habove := span_ancestor_contains (q := ⟨f.fill t, fs⟩) hfill hq
        rw [hspan] at habove
        have hparent : span ⟨f.fill t, fs⟩ = span ⟨t, f :: fs⟩ := by
          calc span ⟨f.fill t, fs⟩
              = ⟨(span ⟨f.fill t, fs⟩).start, (span ⟨f.fill t, fs⟩).stop⟩ := rfl
            _ = ⟨(span ⟨t, f :: fs⟩).start, (span ⟨t, f :: fs⟩).stop⟩ := by
                rw [Span.mk.injEq]
                omega
        rw [if_pos hparent]
        exact ih hfill hq (hspan.trans hparent.symm)

theorem outermostFrom_outermost {q : Place} (hs : s.start < s.stop) (hq : Innermost g s q) :
    Outermost g q.span (outermostFrom q.focus q.above) := by
  obtain ⟨hnode, hroot⟩ := mem_descendants_ofRoot.mp hq.mem
  have hmem := outermostFrom_mem q.focus q.above
  refine ⟨mem_descendants_ofRoot.mpr ⟨isNode_of_mem_ancestors hnode hmem,
    (root_of_mem_ancestors hmem).trans hroot⟩, span_outermostFrom _ _, fun p hp hspan => ?_⟩
  have habove := hq.below p hp (hspan ▸ hq.contains)
  have htext := (holds_iff.mp (holds_of_contains hs hq.contains)).2
  exact outermostFrom_mem_ancestors (tokens_ne_nil_of_text htext) habove hspan

/-- The nodes of a tree that contain a selection of one byte at least are one above the other, and
the search finds, from any of them, the outermost node of the span of the innermost one. -/
theorem find?_outermost_innermost {n : Place} (hn : n ∈ (ofRoot g).descendants)
    (hs : s.start < s.stop) (hns : n.span.contains s = true) :
    (∀ p ∈ (ofRoot g).descendants, ∀ q ∈ (ofRoot g).descendants, p.span.contains s = true →
      q.span.contains s = true → p ∈ q.ancestors ∨ q ∈ p.ancestors) ∧
    ∃ inner found, Innermost g s inner ∧ Outermost g inner.span found ∧
      n.find? s = some found ∧ (ofRoot g).find? s = some found := by
  obtain ⟨hnode, hroot⟩ := mem_descendants_ofRoot.mp hn
  have hinner := deepest_innermost hs hn hns
  have hholds := holds_of_contains hs hns
  have hfind := find?_of_holds hholds
  refine ⟨?_, deepest s n, _, hinner, outermostFrom_outermost hs hinner, hfind, ?_⟩
  · intro p hp q hq hps hqs
    obtain ⟨hp, hproot⟩ := mem_descendants_ofRoot.mp hp
    exact nested_of_contains hp (hproot.trans (mem_descendants_ofRoot.mp hq).2.symm) hs hps hqs
  · -- the root holds the selection too, and the innermost node below it is the same one
    have habove : ofRoot g ∈ n.ancestors := hroot ▸ ofRoot_mem_ancestors n
    have hgmem : ofRoot g ∈ (ofRoot g).descendants :=
      mem_descendants_ofRoot.mpr ⟨isNode_of_mem_ancestors hnode habove, rfl⟩
    have hgholds := holds_of_mem_ancestors hholds habove
    have hginner := deepest_innermost hs hgmem (holds_iff.mp hgholds).1
    rw [find?_of_holds hgholds, hginner.unique hinner]

/-- The only argument of a call; the node above it has the same span. -/
def soleArgument : Place :=
  ⟨.identifierName "x",
    [⟨.argument, [], []⟩,
      ⟨.argumentList, [.leaf .openParen "("], [.leaf .closeParen ")"]⟩,
      ⟨.invocation, [.identifierName "f"], []⟩,
      ⟨.expressionStatement, [], [.leaf .semicolon ";"]⟩,
      ⟨.compilationUnit, [], [Grammar.endOfFile ""]⟩]⟩

theorem find?_outermost_innermost_soleArgument :
    Grammar.document "f(x);" = .ok soleArgument.root ∧
      soleArgument ∈ (ofRoot soleArgument.root).descendants ∧
      Span.start ⟨2, 3⟩ < Span.stop ⟨2, 3⟩ ∧ soleArgument.span.contains ⟨2, 3⟩ = true ∧
      ∃ found, soleArgument.find? ⟨2, 3⟩ = some found ∧
        (ofRoot soleArgument.root).find? ⟨2, 3⟩ = some found ∧
        soleArgument.parent? = some found := by
  have hd : Grammar.document "f(x);" = .ok soleArgument.root := rfl
  have hn : soleArgument ∈ (ofRoot soleArgument.root).descendants :=
    mem_descendants_ofRoot.mpr ⟨rfl, rfl⟩
  have hs : Span.start ⟨2, 3⟩ < Span.stop ⟨2, 3⟩ := by decide
  have hns : soleArgument.span.contains ⟨2, 3⟩ = true := by decide +kernel
  obtain ⟨-, inner, found, -, -, hfind, hroot⟩ := find?_outermost_innermost hn hs hns
  have hparent : soleArgument.find? ⟨2, 3⟩ = soleArgument.parent? := by decide +kernel
  exact ⟨hd, hn, hs, hns, found, hfind, hroot, hparent ▸ hfind⟩

end Place

end CallFill
