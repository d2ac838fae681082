import CallFill.Proofs.Positions
import CallFill.Proofs.Rewriting

/-!
# Replacing is local

Another subtree at the place of a node changes the text of the tree only where the node stood, and
the tree only at the node and, in what is below them, at its ancestors.  A replacement climbs from
parent to parent, so what it does to the ancestors is proved along that climb.
-/

namespace CallFill.Place

open CallFill.Text CallFill.Tree

/-! ## The climb -/

/-- To replace a child is to replace its parent by a copy with the new child. -/
theorem replace_parent {p q : Place} (h : q.parent? = some p) (t : Tree) :
    ∃ u, p.focus.replaceChild q.index t = .ok u ∧ q.replace t = p.replace u := by
  obtain ⟨v, _ | ⟨f, fs⟩⟩ := q
  · cases h
  · obtain rfl : _ = p := by simpa using h
    have hindex : f.index < (f.fill v).children.length := by simp [Frame.fill, Frame.index]
    refine ⟨f.fill t, ?_, rfl⟩
    rw [replaceChild, index, if_pos hindex, Frame.setChild_fill]

/-- What is above a replaced place stays a node of its kind with as many children. -/
theorem exists_at?_replace {p q : Place} (h : p ∈ q.ancestors) (hne : p ≠ q) (t : Tree) :
    ∃ u, (q.replace t).at? p.path = some u ∧ u.kind = p.focus.kind ∧
      u.children.length = p.focus.children.length := by
  obtain ⟨v, fs⟩ := q
  induction fs generalizing v t with
  | nil => exact absurd (by simpa [ancestors, ancestorsFrom] using h) hne
  | cons f fs ih =>
      rw [ancestors_cons] at h
      obtain h := (List.mem_cons.mp h).resolve_left hne
      by_cases hparent : p = ⟨f.fill v, fs⟩
      · subst hparent
        refine ⟨f.fill t, at?_path ⟨f.fill t, fs⟩, rfl, ?_⟩
        simp [Frame.fill]
      · exact ih (f.fill t) (f.fill v) h hparent

/-! ## The new tree -/

/-- The new subtree is where the old one was. -/
theorem at?_replace (p : Place) (t : Tree) : (p.replace t).at? p.path = some t :=
  at?_path ⟨t, p.above⟩

/-- A second replacement at the same path undoes the first. -/
theorem replace_replace {p q : Place} {t : Tree} (hroot : q.root = p.replace t)
    (hpath : q.path = p.path) (u : Tree) : q.replace u = p.replace u := by
  obtain rfl : q = ⟨t, p.above⟩ := eq_of_path_eq hroot hpath
  rfl

/-- A replacement changes the tree at the place itself and in the ancestors on the way there, which
keep their kinds and the number of their children.  To put back what was there changes nothing, and
of two replacements at one path the last counts. -/
theorem replace_local {g : Tree} {n : Place} (hn : n ∈ (ofRoot g).descendants) {t : Tree}
    (ht : t.isNode = true) :
    (∃ before after, Flanks g.whole n.fullSpan before after ∧
      (n.replace t).whole = before ++ t.whole ++ after) ∧
    (n.replace t).at? n.path = some t ∧
    (∀ is, ¬ is <+: n.path → ¬ n.path <+: is → (n.replace t).at? is = g.at? is) ∧
    (∀ a ∈ n.ancestors, a ≠ n → g.at? a.path = some a.focus ∧
      ∃ u, (n.replace t).at? a.path = some u ∧ u.kind = a.focus.kind ∧
        u.children.length = a.focus.children.length) ∧
    (∀ p, n.parent? = some p →
      ∃ u, p.focus.replaceChild n.index t = .ok u ∧ n.replace t = p.replace u) ∧
    n.replace n.focus = g ∧
    (∃ n' ∈ (ofRoot (n.replace t)).descendants, n'.path = n.path) ∧
    ∀ n' ∈ (ofRoot (n.replace t)).descendants, n'.path = n.path →
      ∀ u, n'.replace u = n.replace u := by
  obtain ⟨-, rfl⟩ := mem_descendants_ofRoot.mp hn
  refine ⟨⟨_, _, n.flanks, whole_replace n t⟩, at?_replace n t, ?_, ?_, ?_, rfl, ?_, ?_⟩
  · intro is hup hdown
    exact at?_fillAll_of_parting n.above t n.focus hup hdown
  · intro a ha hne
    refine ⟨?_, exists_at?_replace ha hne t⟩
    rw [← root_of_mem_ancestors ha]
    exact at?_path a
  · intro p hp
    exact replace_parent hp t
  · exact ⟨⟨t, n.above⟩, mem_descendants_ofRoot.mpr ⟨ht, rfl⟩, rfl⟩
  · intro n' hn' hpath u
    exact replace_replace (mem_descendants_ofRoot.mp hn').2 hpath u

/-- The second argument of a call; the comma before it is a sibling too. -/
def secondArgument : Place :=
  ⟨.argument (.identifierName "y"),
    [⟨.argumentList, [.separator, .argument (.identifierName "x"), .leaf .openParen "("],
        [.leaf .closeParen ")"]⟩,
      ⟨.invocation, [.identifierName "f"], []⟩,
      ⟨.expressionStatement, [], [.leaf .semicolon ";"]⟩,
      ⟨.compilationUnit, [], [Grammar.endOfFile ""]⟩]⟩

theorem replace_local_secondArgument :
    Grammar.document "f(x, y);" = .ok secondArgument.root ∧
      secondArgument ∈ (ofRoot secondArgument.root).descendants ∧
      (Tree.node .argument []).isNode = true ∧
      (secondArgument.replace (.node .argument [])).at? [0, 0, 1, 3] = some (.node .argument []) ∧
      (∃ n' ∈ (ofRoot (secondArgument.replace (.node .argument []))).descendants,
        n'.path = [0, 0, 1, 3] ∧
          n'.replace secondArgument.focus = secondArgument.root) := by
  have hn : secondArgument ∈ (ofRoot secondArgument.root).descendants :=
    mem_descendants_ofRoot.mpr ⟨rfl, rfl⟩
  obtain ⟨-, hat, -, -, -, hback, ⟨n', hn', hpath⟩, hagain⟩ :=
    replace_local hn (t := .node .argument []) rfl
  refine ⟨rfl, hn, rfl, hat, n', hn', hpath, ?_⟩
  rw [hagain n' hn' hpath, hback]

end CallFill.Place
