import CallFill.Proofs.Spans

/-!
# Positions

The nodes of a tree are listed in the order of their paths, each once.  The two spans of a node cut
its own source and its text out of the source of the tree, the span of a token that of the token.
All spans are cases of one: that of a place, of a node or a token, among the tokens around it.
-/

namespace CallFill

open CallFill.Text CallFill.Tree

/-- A span cuts a part out of a text: so many bytes are before the part and through it. -/
def Text.Cuts (text : String) (s : Span) (part : String) : Prop :=
  ∃ before after, text = before ++ part ++ after ∧ before.utf8ByteSize = s.start ∧
    before.utf8ByteSize + part.utf8ByteSize = s.stop

namespace Place

/-! ## Paths in order -/

theorem path_eq (p : Place) : p.path = pathOf p.above := rfl

theorem at?_path (p : Place) : p.root.at? p.path = some p.focus := by
  rw [root, path_eq, ← List.append_nil (pathOf p.above), at?_fillAll, at?_nil]

/-- In a tree there is one place at the end of a path. -/
theorem eq_of_path_eq {p q : Place} (hroot : p.root = q.root) (hpath : p.path = q.path) :
    p = q := by
  obtain ⟨t, fs⟩ := p
  obtain ⟨u, gs⟩ := q
  simp only [path_eq] at hpath
  induction fs generalizing t u gs with
  | nil =>
      cases gs with
      | nil =>
          obtain rfl : t = u := hroot
          rfl
      | cons g gs => simp [pathOf] at hpath
  | cons f fs ih =>
      cases gs with
      | nil => simp [pathOf] at hpath
      | cons g gs =>
          rw [pathOf_cons, pathOf_cons] at hpath
          obtain ⟨hpath, hindex⟩ := List.append_inj' hpath rfl
          obtain ⟨hfill, rfl⟩ := Place.mk.inj (ih (f.fill t) (g.fill u) gs hroot hpath)
          obtain ⟨rfl, rfl⟩ := Frame.eq_of_fill_eq hfill (List.singleton_inj.mp hindex)
          rfl

theorem path_prefix_of_mem_ancestors {p q : Place} (h : p ∈ q.ancestors) : p.path <+: q.path := by
  obtain ⟨t, fs⟩ := q
  induction fs generalizing t with
  | nil =>
      obtain rfl : p = ⟨t, []⟩ := by simpa [ancestors, ancestorsFrom] using h
      exact List.prefix_rfl
  | cons f fs ih =>
      rw [ancestors_cons] at h
      rcases List.mem_cons.mp h with rfl | h
      · exact List.prefix_rfl
      · refine (ih (f.fill t) h).trans ?_
        rw [path_eq, path_eq, pathOf_cons]
        exact List.prefix_append _ _

/-- What is below some of the children of a node is below one of them. -/
theorem path_of_mem_descendantsAll {k : NodeKind} {above : List Frame} {q : Place}
    {before cs : List Tree} (h : q ∈ descendantsAll k above before cs) :
    ∃ i, before.length ≤ i ∧ pathOf above ++ [i] <+: q.path := by
  induction cs generalizing before with
  | nil => cases h
  | cons c cs ih =>
      rcases List.mem_append.mp h with h | h
      · have hmem := (mem_ancestors_of_descendantsFrom _ c h).2
        refine ⟨before.length, Nat.le_refl _, ?_⟩
        simpa [path_eq, pathOf_cons, Frame.index] using path_prefix_of_mem_ancestors hmem
      · obtain ⟨i, hi, hpath⟩ := ih h
        exact ⟨i, Nat.le_of_succ_le hi, hpath⟩

theorem path_lt_of_prefix {is js : List Nat} {i : Nat} (h : is ++ [i] <+: js) : is < js := by
  obtain ⟨ks, rfl⟩ := h
  induction is with
  | nil => simp
  | cons j is ih => exact List.cons_lt_cons_iff.mpr (.inr ⟨rfl, ih⟩)

/-- Of two paths that part, the one that goes further left comes first. -/
theorem path_lt_of_parting {is js ks : List Nat} {i j : Nat} (hlt : i < j)
    (hi : is ++ [i] <+: js) (hj : is ++ [j] <+: ks) : js < ks := by
  obtain ⟨xs, rfl⟩ := hi
  obtain ⟨ys, rfl⟩ := hj
  induction is with
  | nil => exact List.cons_lt_cons_iff.mpr (.inl hlt)
  | cons l is ih => exact List.cons_lt_cons_iff.mpr (.inr ⟨rfl, ih⟩)

mutual

theorem descendantsFrom_pairwise (above : List Frame) : (t : Tree) →
    (descendantsFrom above t).Pairwise fun p q => p.path < q.path
  | .token _ => .nil
  | .node k cs => by
    refine List.pairwise_cons.mpr ⟨?_, descendantsAll_pairwise k above [] cs⟩
    intro q hq
    obtain ⟨i, -, hpath⟩ := path_of_mem_descendantsAll hq
    exact path_lt_of_prefix hpath

theorem descendantsAll_pairwise (k : NodeKind) (above : List Frame) (before : List Tree) :
    (cs : List Tree) → (descendantsAll k above before cs).Pairwise fun p q => p.path < q.path
  | [] => .nil
  | c :: cs => by
    refine List.pairwise_append.mpr ⟨descendantsFrom_pairwise _ c,
      descendantsAll_pairwise k above (c :: before) cs, ?_⟩
    intro p hp q hq
    have hleft : pathOf above ++ [before.length] <+: p.path := by
      have hmem := (mem_ancestors_of_descendantsFrom _ c hp).2
      simpa [path_eq, pathOf_cons, Frame.index] using path_prefix_of_mem_ancestors hmem
    obtain ⟨i, hi, hright⟩ := path_of_mem_descendantsAll hq
    exact path_lt_of_parting hi hleft hright

end

/-! ## Every node has a place -/

theorem exists_frames_of_at? {t u : Tree} {is : List Nat} (fs : List Frame)
    (h : u.at? is = some t) :
    ∃ gs, fillAll t gs = fillAll u fs ∧ pathOf gs = pathOf fs ++ is := by
  induction is generalizing u fs with
  | nil =>
      obtain rfl : u = t := by simpa using h
      exact ⟨fs, rfl, by simp⟩
  | cons i is ih =>
      rw [at?_cons, Option.bind_eq_some_iff] at h
      obtain ⟨c, hc, h⟩ := h
      cases u with
      | token u => simp at hc
      | node k cs =>
          obtain ⟨hlt, hc⟩ : ∃ hlt : i < cs.length, cs[i] = c := List.getElem?_eq_some_iff.mp hc
          let f : Frame := ⟨k, (cs.take i).reverse, cs.drop (i + 1)⟩
          have hfill : f.fill c = .node k cs := by
            simp only [f, Frame.fill, List.reverse_reverse, ← hc, List.getElem_cons_drop,
              List.take_append_drop]
          have hindex : f.index = i := by simp [f, Frame.index, Nat.le_of_lt hlt]
          obtain ⟨gs, hroot, hpath⟩ := ih (f :: fs) h
          refine ⟨gs, ?_, ?_⟩
          · rw [hroot, fillAll_cons, hfill]
          · rw [hpath, pathOf_cons, hindex, List.append_assoc, List.singleton_append]

theorem exists_of_at? {t g : Tree} {is : List Nat} (h : g.at? is = some t) :
    ∃ p : Place, p.root = g ∧ p.path = is ∧ p.focus = t := by
  obtain ⟨gs, hroot, hpath⟩ := exists_frames_of_at? [] h
  exact ⟨⟨t, gs⟩, hroot, hpath, rfl⟩

/-! ## Spans cut -/

theorem cuts_fullSpan (p : Place) : Cuts p.root.whole p.fullSpan p.focus.whole :=
  ⟨_, _, whole_root p, (start_eq p).symm, by rw [fullSpan, start_eq, width_eq_whole]⟩

theorem cuts_span (p : Place) : Cuts p.root.whole p.span p.text := ⟨_, _, p.around_text⟩

end Place

namespace TokenPlace

theorem map_token_among (offset : Nat) (cs : List Tree) :
    (among offset cs).map token = cs.filterMap Tree.token? := by
  induction cs generalizing offset with
  | nil => rfl
  | cons c cs ih => cases c <;> simp [among, Tree.token?, ih, List.filterMap_cons]

theorem exists_of_mem_among {u : TokenPlace} {offset : Nat} {cs : List Tree}
    (h : u ∈ among offset cs) : ∃ xs ys, cs = xs ++ .token u.token :: ys ∧
      u.start = widthAll xs + offset := by
  induction cs generalizing offset with
  | nil => cases h
  | cons c cs ih =>
      have hcases : c = .token u.token ∧ u.start = offset ∨ u ∈ among (offset + c.width) cs := by
        cases c with
        | node k ds => exact .inr h
        | token t =>
            rcases List.mem_cons.mp h with rfl | h
            · exact .inl ⟨rfl, rfl⟩
            · exact .inr h
      rcases hcases with ⟨rfl, hstart⟩ | h
      · exact ⟨[], cs, rfl, by simpa using hstart⟩
      · obtain ⟨xs, ys, rfl, hstart⟩ := ih h
        refine ⟨c :: xs, ys, rfl, ?_⟩
        rw [hstart, widthAll_cons]
        omega

end TokenPlace

namespace Place

/-- A token among the children is at a place of its own, below its parent. -/
theorem exists_place_of_tokenPlaces {p : Place} {u : TokenPlace} (h : u ∈ p.tokenPlaces) :
    ∃ q : Place, q.root = p.root ∧ q.text = u.token.text ∧ q.span = u.span := by
  obtain ⟨xs, ys, hcs, hstart⟩ := TokenPlace.exists_of_mem_among h
  obtain ⟨t, fs⟩ := p
  cases t with
  | token t => simp at hcs
  | node k cs =>
      obtain rfl : cs = _ := hcs
      let q : Place := ⟨.token u.token, ⟨k, xs.reverse, ys⟩ :: fs⟩
      have htext : q.text = u.token.text := by simp [q, text, Tree.text, Token.inner]
      have hspan : q.span.start = u.span.start := by
        simp [q, span, start, TokenPlace.span, Frame.offset, hstart, leadingWidth,
          Token.leadingWidth]
      have hstop : q.span.stop = u.span.stop := by
        rw [span_stop, htext, hspan]
        rfl
      refine ⟨q, by simp [q, root, Frame.fill], htext, ?_⟩
      calc q.span = ⟨q.span.start, q.span.stop⟩ := rfl
        _ = ⟨u.span.start, u.span.stop⟩ := by rw [hspan, hstop]

/-! ## The nodes of a tree -/

/-- What the position of a node says about the tree it stands in. -/
structure Positioned (g : Tree) (n : Place) : Prop where
  fullSpan : Span.between n.start (n.start + n.focus.width) = .ok n.fullSpan
  trailing : n.focus.trailingWidth ≤ n.focus.width
  span : Span.between (n.fullSpan.start + n.focus.leadingWidth)
    (n.fullSpan.stop - n.focus.trailingWidth) = .ok n.span
  whole : Cuts g.whole n.fullSpan n.focus.whole
  text : Cuts g.whole n.span n.text
  width : n.focus.width = n.focus.whole.utf8ByteSize
  parent : n = ofRoot g ∨ ∃ p ∈ (ofRoot g).descendants, n.parent? = some p ∧
    p.focus.children[n.index]? = some n.focus
  tokens : n.tokenPlaces.map (·.token) = n.childTokens
  tokenText : ∀ u ∈ n.tokenPlaces, Cuts g.whole u.span u.token.text

theorem eq_ofRoot_or_parent? {g : Tree} {n : Place} (h : n.root = g) :
    n = ofRoot g ∨ ∃ p ∈ (ofRoot g).descendants, n.parent? = some p ∧
      p.focus.children[n.index]? = some n.focus := by
  obtain ⟨t, fs⟩ := n
  cases fs with
  | nil =>
      obtain rfl : t = g := h
      exact .inl rfl
  | cons f fs =>
      refine .inr ⟨⟨f.fill t, fs⟩, mem_descendants_ofRoot.mpr ⟨rfl, h⟩, rfl, ?_⟩
      simp [Frame.fill, index, Frame.index]

theorem positioned_of_root {g : Tree} {n : Place} (h : n.root = g) : Positioned g n where
  fullSpan := Span.between_eq_ok_iff.mpr ⟨Nat.le_add_right _ _, rfl⟩
  trailing := by
    rw [width_focus]
    omega
  span := by
    refine Span.between_eq_ok_iff.mpr ⟨?_, rfl⟩
    have hwidth := n.width_focus
    simp only [Place.fullSpan]
    omega
  whole := h ▸ n.cuts_fullSpan
  text := h ▸ n.cuts_span
  width := width_eq_whole n.focus
  parent := eq_ofRoot_or_parent? h
  tokens := TokenPlace.map_token_among _ _
  tokenText := by
    intro u hu
    obtain ⟨q, hroot, htext, hspan⟩ := exists_place_of_tokenPlaces hu
    rw [← h, ← hroot, ← htext, ← hspan]
    exact q.cuts_span

/-- The nodes of a tree are listed once each, in the order of their paths, and the position of each
fits the source of the tree. -/
theorem descendants_positioned (g : Tree) :
    ((ofRoot g).descendants.map path).Pairwise (· < ·) ∧
    (∀ is k cs, g.at? is = some (.node k cs) ↔
      ∃ n ∈ (ofRoot g).descendants, n.path = is ∧ n.focus = .node k cs) ∧
    ∀ n ∈ (ofRoot g).descendants, Positioned g n := by
  refine ⟨List.pairwise_map.mpr (descendantsFrom_pairwise [] g), ?_, ?_⟩
  · intro is k cs
    constructor
    · intro h
      obtain ⟨n, hroot, hpath, hfocus⟩ := exists_of_at? h
      refine ⟨n, mem_descendants_ofRoot.mpr ⟨?_, hroot⟩, hpath, hfocus⟩
      rw [hfocus, isNode]
    · rintro ⟨n, hn, rfl, hfocus⟩
      rw [← (mem_descendants_ofRoot.mp hn).2, ← hfocus]
      exact n.at?_path
  · intro n hn
    exact positioned_of_root (mem_descendants_ofRoot.mp hn).2

end Place

end CallFill
