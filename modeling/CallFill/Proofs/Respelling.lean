import CallFill.Proofs.Acceptance

/-!
# Trees without their trivia

The shape of a tree and whether it fits say nothing about the trivia of its tokens.  So any tokens
of the same kinds and texts can take the place of those of a tree, and a text that is cut into the
texts of a document's tokens is read as that document up to trivia.
-/

namespace CallFill

namespace Token

@[simp] theorem face_strip (t : Token) : t.strip.face = t.face := rfl

theorem strip_eq_iff {t u : Token} : t.strip = u.strip ↔ t.kind = u.kind ∧ t.text = u.text := by
  simp [strip, bare]

/-- The kind of a token that is spelled as its kind has it comes from its text. -/
theorem Spelled.strip_eq {t u : Token} (ht : t.Spelled) (hu : u.Spelled) (h : t.text = u.text) :
    t.strip = u.strip := by
  rw [Spelled, h] at ht
  exact strip_eq_iff.mpr ⟨Lexical.Lexeme.kind_unique ht hu, h⟩

theorem map_strip_eq {ts us : List Token} (hts : ∀ t ∈ ts, t.Spelled) (hus : ∀ u ∈ us, u.Spelled)
    (h : ts.map text = us.map text) : ts.map strip = us.map strip := by
  induction ts generalizing us with
  | nil =>
      obtain rfl : us = [] := by simpa using h.symm
      rfl
  | cons t ts ih =>
      obtain ⟨u, us, rfl, htu, hrest⟩ := List.map_eq_cons_iff.mp h.symm
      obtain ⟨ht, hts⟩ := List.forall_mem_cons.mp hts
      obtain ⟨hu, hus⟩ := List.forall_mem_cons.mp hus
      rw [List.map_cons, List.map_cons, ht.strip_eq hu htu.symm, ih hts hus hrest.symm]

end Token

namespace Tree

/-! ## What is left without trivia -/

@[simp] theorem strip_token (t : Token) : (token t).strip = .token t.strip := rfl

theorem stripAll_eq_map (cs : List Tree) : stripAll cs = cs.map strip := by
  induction cs with
  | nil => rfl
  | cons c cs ih => simp [stripAll, ih]

@[simp] theorem strip_node (k : NodeKind) (cs : List Tree) :
    (node k cs).strip = .node k (cs.map strip) := by
  rw [strip, stripAll_eq_map]

@[simp] theorem face_strip (t : Tree) : t.strip.face = t.face := by
  cases t with
  | token t => rfl
  | node k cs => simp

theorem face_eq_of_strip {t u : Tree} (h : t.strip = u.strip) : t.face = u.face := by
  rw [← face_strip t, h, face_strip]

theorem map_face_eq_of_strip {cs ds : List Tree} (h : cs.map strip = ds.map strip) :
    cs.map face = ds.map face := by
  have hface := congrArg (List.map face) h
  simpa [Function.comp_def] using hface

/-- Whether a tree fits does not depend on its trivia. -/
theorem Fits.of_strip {t u : Tree} (ht : t.Fits) (h : u.strip = t.strip) : u.Fits := by
  induction ht generalizing u with
  | token t =>
      cases u with
      | token u => exact .token u
      | node k cs => simp at h
  | @node k fs cs ha hf hc ih =>
      cases u with
      | token u => simp at h
      | node j ds =>
          obtain ⟨rfl, hcs⟩ : j = k ∧ ds.map strip = cs.map strip := by simpa using h
          refine .node ha ((map_face_eq_of_strip hcs).trans hf) fun d hd => ?_
          obtain ⟨c, hmem, hcd⟩ := List.mem_map.mp (hcs ▸ List.mem_map_of_mem (f := strip) hd)
          exact ih c hmem hcd.symm

theorem FitsAs.of_strip {p : NodeKind → Bool} {t u : Tree} (ht : FitsAs p t)
    (h : u.strip = t.strip) : FitsAs p u := by
  obtain ⟨k, hface, hk⟩ := ht.isOf.face_eq
  exact .of_face (ht.fits.of_strip h) ((face_eq_of_strip h).trans hface) hk

theorem forall_of_strip {p : NodeKind → Bool} {ts us : List Tree} (h : ∀ t ∈ ts, FitsAs p t)
    (hstrip : us.map strip = ts.map strip) : ∀ u ∈ us, FitsAs p u := by
  intro u hu
  obtain ⟨t, hmem, htu⟩ := List.mem_map.mp (hstrip ▸ List.mem_map_of_mem (f := strip) hu)
  exact (h t hmem).of_strip htu.symm

/-! ## Other tokens -/

mutual

/-- Tokens of the same kinds and texts make a tree of the same shape. -/
theorem exists_of_tokens : (t : Tree) → {us : List Token} →
    us.map Token.strip = t.tokens.map Token.strip → ∃ u : Tree, u.tokens = us ∧ u.strip = t.strip
  | .token t, us, h => by
    obtain ⟨u, _, rfl, hu, hnil⟩ : ∃ u vs, us = u :: vs ∧ u.strip = t.strip ∧ vs = [] := by
      simpa [List.map_eq_cons_iff] using h
    subst hnil
    exact ⟨.token u, by simp, by simp [hu]⟩
  | .node k cs, us, h => by
    obtain ⟨ds, hds, hstrip⟩ := exists_of_tokensAll cs (by simpa using h)
    exact ⟨.node k ds, by simpa using hds, by simp [hstrip]⟩

theorem exists_of_tokensAll : (cs : List Tree) → {us : List Token} →
    us.map Token.strip = (tokensAll cs).map Token.strip →
    ∃ ds : List Tree, tokensAll ds = us ∧ ds.map strip = cs.map strip
  | [], us, h => by
    obtain rfl : us = [] := by simpa using h
    exact ⟨[], rfl, rfl⟩
  | c :: cs, us, h => by
    rw [tokensAll_cons, List.map_append] at h
    obtain ⟨vs, ws, rfl, hvs, hws⟩ := List.map_eq_append_iff.mp h
    obtain ⟨d, rfl, hd⟩ := exists_of_tokens c hvs
    obtain ⟨ds, rfl, hds⟩ := exists_of_tokensAll cs hws
    exact ⟨d :: ds, by simp, by simp [hd, hds]⟩

end

end Tree

namespace Grammar

open CallFill.Tree CallFill.Lexical

/-- A text that is cut into the texts of fitting statements is read as these statements, up to
trivia. -/
theorem document_of_cut {source : String} {ss : List Tree}
    (h : ∀ s ∈ ss, FitsAs NodeKind.isStatement s) (hs : ∀ t ∈ tokensAll ss, t.Spelled)
    (hcut : Cut source.toList ((tokensAll ss).map Token.text)) : ∃ us trivia,
      document source = .ok (.node .compilationUnit (us ++ [endOfFile trivia])) ∧
      us.map strip = ss.map strip := by
  obtain ⟨ts, trivia, ht, hl, htexts⟩ := cut_iff_tokens.mp hcut
  have hstrip := Token.map_strip_eq (spelled_of_tokens ht) hs htexts.symm
  obtain ⟨us, rfl, hus⟩ := exists_of_tokensAll ss hstrip
  exact ⟨us, String.ofList trivia, document_of_tokens (forall_of_strip h hus) ht hl, hus⟩

end Grammar

end CallFill
