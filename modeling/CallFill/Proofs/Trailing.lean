import CallFill.Proofs.Arrangement

/-!
# Trivia after the last token

Appending trivia changes the last token of a tree and nothing else: the tokens before it, the
shape and the face of the tree are those it had.
-/

namespace CallFill

namespace Token

@[simp] theorem wholeAll_nil : wholeAll [] = "" := rfl

@[simp] theorem wholeAll_cons (t : Token) (ts : List Token) :
    wholeAll (t :: ts) = t.whole ++ wholeAll ts := by
  simp [wholeAll]

@[simp] theorem wholeAll_append (ts us : List Token) :
    wholeAll (ts ++ us) = wholeAll ts ++ wholeAll us := by
  induction ts with
  | nil => simp
  | cons t ts ih => simp [ih, String.append_assoc]

theorem widthAll_eq (ts : List Token) : widthAll ts = (wholeAll ts).utf8ByteSize := by
  induction ts with
  | nil => rfl
  | cons t ts ih =>
      rw [wholeAll_cons, String.utf8ByteSize_append, ← ih, ← width_eq]
      rfl

@[simp] theorem whole_appendTrailing (t : Token) (s : String) :
    (t.appendTrailing s).whole = t.whole ++ s := by
  simp [whole, appendTrailing, String.append_assoc]

end Token

/-! ## Every fitting tree has a token -/

theorem Arranged.ne_nil {k : NodeKind} {fs : List Face} (h : Arranged k fs) : fs ≠ [] := by
  cases h <;> simp

namespace Tree

theorem whole_node (k : NodeKind) (cs : List Tree) :
    (node k cs).whole = Token.wholeAll (tokensAll cs) := by
  simp [whole]

theorem Fits.tokens_ne_nil {t : Tree} (h : t.Fits) : t.tokens ≠ [] := by
  induction h with
  | token t => simp
  | @node k fs cs ha hf _ ih =>
      cases cs with
      | nil => exact absurd hf.symm ha.ne_nil
      | cons c cs =>
          have hc := ih c List.mem_cons_self
          simp [hc]

/-! ## Appending -/

mutual

/-- Where trivia can be appended, it goes to the last token. -/
theorem tokens_appendTrailing? (s : String) : (t : Tree) →
    (∀ u, t.appendTrailing? s = some u → u.face = t.face ∧ ∃ init last,
      t.tokens = init ++ [last] ∧ u.tokens = init ++ [last.appendTrailing s]) ∧
    (t.appendTrailing? s = none → t.tokens = [])
  | .token t => by
    constructor
    · intro u hu
      obtain rfl : Tree.token (t.appendTrailing s) = u := by simpa [appendTrailing?] using hu
      exact ⟨rfl, [], t, by simp, by simp⟩
    · intro h
      simp [appendTrailing?] at h
  | .node k cs => by
    obtain ⟨hsome, hnone⟩ := tokensAll_appendTrailingAll? s cs
    simp only [appendTrailing?]
    constructor
    · intro u hu
      split at hu
      · next ds hds =>
        cases hu
        obtain ⟨-, init, last, h₁, h₂⟩ := hsome ds hds
        exact ⟨rfl, init, last, by simpa using h₁, by simpa using h₂⟩
      · cases hu
    · intro h
      split at h
      · cases h
      · next hds => simpa using hnone hds

theorem tokensAll_appendTrailingAll? (s : String) : (cs : List Tree) →
    (∀ ds, appendTrailingAll? s cs = some ds → ds.map face = cs.map face ∧ ∃ init last,
      tokensAll cs = init ++ [last] ∧ tokensAll ds = init ++ [last.appendTrailing s]) ∧
    (appendTrailingAll? s cs = none → tokensAll cs = [])
  | [] => by simp [appendTrailingAll?]
  | c :: cs => by
    obtain ⟨hsome, hnone⟩ := tokensAll_appendTrailingAll? s cs
    obtain ⟨hsome', hnone'⟩ := tokens_appendTrailing? s c
    simp only [appendTrailingAll?]
    constructor
    · intro ds hds
      split at hds
      · next ds' hds' =>
        cases hds
        obtain ⟨hface, init, last, h₁, h₂⟩ := hsome ds' hds'
        exact ⟨by simp [hface], c.tokens ++ init, last, by simp [h₁], by simp [h₂]⟩
      · next hds' =>
        split at hds
        · next d hd =>
          cases hds
          obtain ⟨hface, init, last, h₁, h₂⟩ := hsome' d hd
          have htail := hnone hds'
          exact ⟨by simp [hface], init, last, by simp [h₁, htail], by simp [h₂, htail]⟩
        · cases hds
    · intro h
      split at h
      · cases h
      · next hds =>
        split at h
        · cases h
        · next hd => simp [hnone hds, hnone' hd]

end

theorem mem_appendTrailingAll? {s : String} {cs ds : List Tree}
    (h : appendTrailingAll? s cs = some ds) {d : Tree} (hd : d ∈ ds) :
    d ∈ cs ∨ ∃ c ∈ cs, c.appendTrailing? s = some d := by
  induction cs generalizing ds with
  | nil => simp [appendTrailingAll?] at h
  | cons c cs ih =>
      simp only [appendTrailingAll?] at h
      split at h
      · next ds' hds' =>
        cases h
        rcases List.mem_cons.mp hd with rfl | hd
        · exact .inl List.mem_cons_self
        · rcases ih hds' hd with hmem | ⟨c', hc', he⟩
          · exact .inl (List.mem_cons_of_mem _ hmem)
          · exact .inr ⟨c', List.mem_cons_of_mem _ hc', he⟩
      · split at h
        · next d' hd' =>
          cases h
          rcases List.mem_cons.mp hd with rfl | hd
          · exact .inr ⟨c, List.mem_cons_self, hd'⟩
          · exact .inl (List.mem_cons_of_mem _ hd)
        · cases h

@[simp] theorem face_appendTrailing (s : String) (t : Tree) :
    (t.appendTrailing s).face = t.face := by
  rw [appendTrailing]
  cases h : t.appendTrailing? s with
  | none => rfl
  | some u => exact ((tokens_appendTrailing? s t).1 u h).1

theorem Fits.appendTrailing? {s : String} {t u : Tree} (ht : t.Fits)
    (h : t.appendTrailing? s = some u) : u.Fits := by
  induction ht generalizing u with
  | token t =>
      obtain rfl : Tree.token (t.appendTrailing s) = u := by
        simpa [Tree.appendTrailing?] using h
      exact .token _
  | node ha hf hc ih =>
      simp only [Tree.appendTrailing?] at h
      split at h
      · next ds hds =>
        cases h
        refine .node ha ?_ ?_
        · rw [((tokensAll_appendTrailingAll? s _).1 ds hds).1, hf]
        · intro d hd
          rcases mem_appendTrailingAll? hds hd with hmem | ⟨c, hmem, he⟩
          · exact hc d hmem
          · exact ih c hmem he
      · cases h

/-- A fitting tree still fits after trivia has been appended. -/
theorem Fits.appendTrailing (s : String) {t : Tree} (ht : t.Fits) :
    (t.appendTrailing s).Fits := by
  rw [Tree.appendTrailing]
  cases h : t.appendTrailing? s with
  | none => exact ht
  | some u => exact ht.appendTrailing? h

/-- The tokens of a tree after trivia has been appended. -/
theorem tokens_appendTrailing (s : String) {t : Tree} {init : List Token} {last : Token}
    (h : t.tokens = init ++ [last]) :
    (t.appendTrailing s).tokens = init ++ [last.appendTrailing s] := by
  rw [appendTrailing]
  cases hu : t.appendTrailing? s with
  | none =>
      have := (tokens_appendTrailing? s t).2 hu
      simp [h] at this
  | some u =>
      obtain ⟨-, init', last', h₁, h₂⟩ := (tokens_appendTrailing? s t).1 u hu
      obtain ⟨rfl, hlast⟩ := List.append_inj' (h.symm.trans h₁) rfl
      obtain rfl : last = last' := by simpa using hlast
      exact h₂

/-- Appended trivia stands at the end of the source. -/
theorem whole_appendTrailing (s : String) {t : Tree} (h : t.tokens ≠ []) :
    (t.appendTrailing s).whole = t.whole ++ s := by
  obtain ⟨init, last, ht⟩ : ∃ init last, t.tokens = init ++ [last] :=
    ⟨_, _, (List.dropLast_concat_getLast h).symm⟩
  rw [whole, whole, tokens_appendTrailing s ht, ht]
  simp [String.append_assoc]

/-- Children without tokens take no trivia. -/
theorem appendTrailingAll?_eq_none (s : String) {cs : List Tree} (h : tokensAll cs = []) :
    appendTrailingAll? s cs = none := by
  refine Option.eq_none_iff_forall_ne_some.mpr fun ds hds => ?_
  obtain ⟨-, init, last, htokens, -⟩ := (tokensAll_appendTrailingAll? s cs).1 ds hds
  simp [h] at htokens

theorem appendTrailing?_eq_some (s : String) {t : Tree} (h : t.tokens ≠ []) :
    t.appendTrailing? s = some (t.appendTrailing s) := by
  have hsome : t.appendTrailing? s ≠ none := fun hn => h ((tokens_appendTrailing? s t).2 hn)
  obtain ⟨u, hu⟩ := Option.ne_none_iff_exists'.mp hsome
  simp [appendTrailing, hu]

/-- Trivia goes to the last child that has a token. -/
theorem appendTrailingAll?_append (s : String) (cs : List Tree) {t : Tree} (h : t.tokens ≠ [])
    {ds : List Tree} (hds : tokensAll ds = []) :
    appendTrailingAll? s (cs ++ t :: ds) = some (cs ++ t.appendTrailing s :: ds) := by
  induction cs with
  | nil =>
      simp [appendTrailingAll?, appendTrailingAll?_eq_none s hds, appendTrailing?_eq_some s h]
  | cons c cs ih => simp [appendTrailingAll?, ih]

theorem appendTrailing_append (s : String) (k : NodeKind) (cs : List Tree) {t : Tree}
    (h : t.tokens ≠ []) {ds : List Tree} (hds : tokensAll ds = []) :
    (node k (cs ++ t :: ds)).appendTrailing s = node k (cs ++ t.appendTrailing s :: ds) := by
  rw [appendTrailing, appendTrailing?, appendTrailingAll?_append s cs h hds]
  rfl

/-- Trivia goes to the last child, when that has a token. -/
theorem appendTrailing_concat (s : String) (k : NodeKind) (cs : List Tree) {t : Tree}
    (h : t.tokens ≠ []) :
    (node k (cs ++ [t])).appendTrailing s = node k (cs ++ [t.appendTrailing s]) :=
  appendTrailing_append s k cs h tokensAll_nil

end Tree

end CallFill
