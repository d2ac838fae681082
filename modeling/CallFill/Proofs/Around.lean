import CallFill.Proofs.Trailing
import CallFill.Tree.Role

/-!
# What surrounds a place

The tokens before a place, those after it, and the subtrees on other paths stay as they are when
another subtree takes the place.  The bytes of the tokens before it are its offset.
-/

namespace CallFill

namespace Tree

/-! ## Paths -/

/-- The subtree at the end of a path of child indices. -/
def at? : List Nat → Tree → Option Tree
  | [], t => some t
  | i :: is, t =>
    match t.children[i]? with
    | none => none
    | some c => c.at? is

@[simp] theorem at?_nil (t : Tree) : at? [] t = some t := rfl

theorem at?_cons (i : Nat) (is : List Nat) (t : Tree) :
    at? (i :: is) t = (t.children[i]?).bind (at? is) := by
  rw [at?]
  cases t.children[i]? <;> rfl

end Tree

/-- Another child in the gap changes no child outside of it. -/
theorem Frame.at?_fill_of_ne {f : Frame} {i : Nat} (h : i ≠ f.index) (is : List Nat) (t u : Tree) :
    (f.fill t).at? (i :: is) = (f.fill u).at? (i :: is) := by
  have hchild : (f.fill t).children[i]? = (f.fill u).children[i]? := by
    simp only [Frame.fill, Tree.children_node, List.getElem?_append, List.length_reverse]
    split
    · rfl
    · next hle =>
      have hlt : f.before.length < i := by
        simp only [Frame.index] at h
        omega
      obtain ⟨j, hj⟩ : ∃ j, i - f.before.length = j + 1 := ⟨i - f.before.length - 1, by omega⟩
      rw [hj, List.getElem?_cons_succ, List.getElem?_cons_succ]
  rw [Tree.at?_cons, Tree.at?_cons, hchild]

theorem Frame.setChild_fill (f : Frame) (t u : Tree) :
    (f.fill t).setChild f.index u = f.fill u := by
  have hset : (f.before.reverse ++ t :: f.after).set f.before.length u =
      f.before.reverse ++ u :: f.after := by
    rw [List.set_append_right _ _ (by simp), List.length_reverse, Nat.sub_self, List.set_cons_zero]
  rw [fill, index, Tree.setChild, hset, fill]

/-- A node has one child at an index. -/
theorem Frame.eq_of_fill_eq {f g : Frame} {t u : Tree} (h : f.fill t = g.fill u)
    (hindex : f.index = g.index) : f = g ∧ t = u := by
  obtain ⟨k, before, after⟩ := f
  obtain ⟨j, before', after'⟩ := g
  obtain ⟨rfl, hchildren⟩ := Tree.node.inj h
  obtain ⟨hbefore, htail⟩ := List.append_inj hchildren (by simpa [index] using hindex)
  obtain ⟨rfl, rfl⟩ := List.cons.inj htail
  obtain rfl : before = before' := List.reverse_inj.mp hbefore
  exact ⟨rfl, rfl⟩

theorem Frame.tokens_fill (f : Frame) (t : Tree) : (f.fill t).tokens =
    Tree.tokensAll f.before.reverse ++ t.tokens ++ Tree.tokensAll f.after := by
  simp [fill]

theorem Frame.tokens_fill_ne_nil {f : Frame} {t : Tree} (h : t.tokens ≠ []) :
    (f.fill t).tokens ≠ [] := by
  rw [tokens_fill]
  simp [h]

theorem Frame.width_fill (f : Frame) (t : Tree) :
    (f.fill t).width = f.offset + t.width + Token.widthAll (Tree.tokensAll f.after) := by
  rw [fill, Tree.width, Tree.widthAll_append, Tree.widthAll_reverse, Tree.widthAll_cons, offset,
    Tree.widthAll_eq f.after, Nat.add_assoc]

theorem Frame.at?_fill_index (f : Frame) (is : List Nat) (t : Tree) :
    (f.fill t).at? (f.index :: is) = t.at? is := by
  rw [Tree.at?_cons]
  simp [Frame.fill, Frame.index]

namespace Place

/-- The path of the bottom of a list of frames. -/
def pathOf (fs : List Frame) : List Nat := (fs.map Frame.index).reverse

theorem pathOf_cons (f : Frame) (fs : List Frame) : pathOf (f :: fs) = pathOf fs ++ [f.index] := by
  simp [pathOf]

theorem at?_fillAll (t : Tree) (fs : List Frame) (is : List Nat) :
    (fillAll t fs).at? (pathOf fs ++ is) = t.at? is := by
  induction fs generalizing t is with
  | nil => rfl
  | cons f fs ih =>
      rw [fillAll_cons, pathOf_cons, List.append_assoc, ih, List.singleton_append,
        Frame.at?_fill_index]

/-- Two paths part when neither goes on from the other. -/
theorem at?_fillAll_of_parting (fs : List Frame) (t u : Tree) {is : List Nat}
    (hup : ¬ is <+: pathOf fs) (hdown : ¬ pathOf fs <+: is) :
    (fillAll t fs).at? is = (fillAll u fs).at? is := by
  induction fs generalizing t u with
  | nil => exact absurd (List.nil_prefix (l := is)) hdown
  | cons f fs ih =>
      rw [pathOf_cons] at hup hdown
      by_cases hthrough : pathOf fs <+: is
      · obtain ⟨js, rfl⟩ := hthrough
        rw [fillAll_cons, fillAll_cons, at?_fillAll, at?_fillAll]
        cases js with
        | nil => exact absurd ((List.append_nil _).symm ▸ List.prefix_append _ _) hup
        | cons j js =>
            refine Frame.at?_fill_of_ne ?_ js t u
            rintro rfl
            exact hdown ⟨js, by simp⟩
      · exact ih (f.fill t) (f.fill u) (fun h => hup (h.trans (List.prefix_append _ _))) hthrough

/-! ## Tokens -/

/-- The tokens to the left of the bottom of a list of frames. -/
def tokensLeft : List Frame → List Token
  | [] => []
  | f :: fs => tokensLeft fs ++ Tree.tokensAll f.before.reverse

/-- The tokens to the right. -/
def tokensRight : List Frame → List Token
  | [] => []
  | f :: fs => Tree.tokensAll f.after ++ tokensRight fs

theorem tokens_fillAll (t : Tree) (fs : List Frame) :
    (fillAll t fs).tokens = tokensLeft fs ++ t.tokens ++ tokensRight fs := by
  induction fs generalizing t with
  | nil => simp [tokensLeft, tokensRight]
  | cons f fs ih => simp [ih, Frame.fill, tokensLeft, tokensRight]

theorem face_fillAll {t u : Tree} (fs : List Frame) (h : t.face = u.face) :
    (fillAll t fs).face = (fillAll u fs).face := by
  induction fs generalizing t u with
  | nil => exact h
  | cons f fs ih => exact ih rfl

/-! ## Offsets -/

theorem width_eq_whole (t : Tree) : t.width = t.whole.utf8ByteSize := by
  rw [Tree.width_eq, Token.widthAll_eq, Tree.whole]

theorem offset_eq (f : Frame) :
    f.offset = (Token.wholeAll (Tree.tokensAll f.before.reverse)).utf8ByteSize := by
  rw [Frame.offset]
  induction f.before with
  | nil => rfl
  | cons t ts ih =>
      simp only [Tree.widthAll_cons, List.reverse_cons, Tree.tokensAll_append,
        Token.wholeAll_append, String.utf8ByteSize_append, ih, width_eq_whole]
      simp [Tree.whole, Nat.add_comm]

/-- A place begins where the tokens to the left of it end. -/
theorem start_eq (p : Place) :
    p.start = (Token.wholeAll (tokensLeft p.above)).utf8ByteSize := by
  obtain ⟨t, fs⟩ := p
  simp only [start]
  induction fs with
  | nil => rfl
  | cons f fs ih =>
      simp only [Frame.offsetAll_cons, ih, offset_eq, tokensLeft, Token.wholeAll_append,
        String.utf8ByteSize_append]
      omega

theorem whole_replace (p : Place) (t : Tree) :
    (p.replace t).whole = Token.wholeAll (tokensLeft p.above) ++ t.whole ++
      Token.wholeAll (tokensRight p.above) := by
  simp [replace, Tree.whole, tokens_fillAll, String.append_assoc]

theorem whole_root (p : Place) : p.root.whole = Token.wholeAll (tokensLeft p.above) ++
    p.focus.whole ++ Token.wholeAll (tokensRight p.above) := whole_replace p p.focus

end Place

end CallFill
