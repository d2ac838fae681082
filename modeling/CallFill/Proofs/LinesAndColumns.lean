import Mathlib.Data.String.Basic
import Mathlib.Order.Bounds.Defs
import CallFill.Text.Position

/-!
# Lines and columns

The position of an offset is the one behind the characters that are read until the offset is
reached.  Behind a run of characters the line counts the line breaks in it, and the column the
characters since the last one.  On the way back so many line breaks and then so many characters are
skipped, which ends behind the same run, whatever follows it.
-/

namespace CallFill.Text

open String (utf8Len)

/-! ## Boundaries of characters -/

/-- An offset in front of a character or at the end of the text. -/
def IsBoundary (content : String) (offset : Nat) : Prop :=
  String.Pos.Raw.IsValid content ⟨offset⟩

theorem isBoundary_iff {content : String} {offset : Nat} :
    IsBoundary content offset ↔ ∃ cs, cs <+: content.toList ∧ utf8Len cs = offset := by
  rw [IsBoundary, String.Pos.Raw.isValid_iff_exists_append]
  constructor
  · rintro ⟨before, after, rfl, heq⟩
    refine ⟨before.toList, by simp, ?_⟩
    rw [String.utf8Len_toList]
    exact (congrArg String.Pos.Raw.byteIdx heq).symm
  · rintro ⟨cs, ⟨ds, hcs⟩, rfl⟩
    refine ⟨.ofList cs, .ofList ds, by simp [← String.toList_inj, hcs], ?_⟩
    ext
    simp

/-- Reading stops behind the first characters that have so many bytes, or else behind all. -/
structure Reaches (cs : List Char) (bytes : Nat) (read : List Char) : Prop where
  isPrefix : read <+: cs
  enough : min bytes (utf8Len cs) ≤ utf8Len read
  least : ∀ other, other <+: cs → min bytes (utf8Len cs) ≤ utf8Len other →
    utf8Len read ≤ utf8Len other

theorem Reaches.zero (cs : List Char) : Reaches cs 0 [] :=
  ⟨List.nil_prefix, by simp, by simp⟩

theorem Reaches.nil (bytes : Nat) : Reaches [] bytes [] :=
  ⟨List.nil_prefix, by simp, by simp⟩

theorem Reaches.cons {c : Char} {cs read : List Char} {bytes : Nat} (hbytes : bytes ≠ 0)
    (h : Reaches cs (bytes - c.utf8Size) read) : Reaches (c :: cs) bytes (c :: read) where
  isPrefix := List.cons_prefix_cons.mpr ⟨rfl, h.isPrefix⟩
  enough := by
    have := h.enough
    simp only [String.utf8Len_cons]
    omega
  least other hother henough := by
    have hpos := c.utf8Size_pos
    simp only [String.utf8Len_cons] at henough ⊢
    rcases other with _ | ⟨d, ds⟩
    · simp only [String.utf8Len_nil] at henough
      omega
    · obtain ⟨rfl, hds⟩ := List.cons_prefix_cons.mp hother
      simp only [String.utf8Len_cons] at henough ⊢
      have := h.least ds hds (by omega)
      omega

/-- The characters that are read up to an offset end at the next boundary. -/
theorem Reaches.isLeast {content : String} {offset : Nat} {read : List Char}
    (h : Reaches content.toList offset read) :
    IsLeast {b | IsBoundary content b ∧ min offset content.utf8ByteSize ≤ b} (utf8Len read) := by
  have hsize : utf8Len content.toList = content.utf8ByteSize := String.utf8Len_toList _
  refine ⟨⟨isBoundary_iff.mpr ⟨read, h.isPrefix, rfl⟩, hsize ▸ h.enough⟩, ?_⟩
  rintro b ⟨hb, hle⟩
  obtain ⟨other, hother, rfl⟩ := isBoundary_iff.mp hb
  exact h.least other hother (hsize ▸ hle)

namespace Position

/-! ## Reading on -/

/-- The position behind characters that begin at `p`. -/
def after (p : Position) (cs : List Char) : Position := cs.foldl next p

@[simp] theorem after_cons (p : Position) (c : Char) (cs : List Char) :
    p.after (c :: cs) = (p.next c).after cs := rfl

theorem exists_walk_eq (cs : List Char) (bytes : Nat) :
    ∃ read, Reaches cs bytes read ∧ ∀ p, walk cs bytes p = p.after read := by
  induction cs generalizing bytes with
  | nil => exact ⟨[], .nil _, fun p => rfl⟩
  | cons c cs ih =>
    by_cases hbytes : bytes = 0
    · subst hbytes
      exact ⟨[], .zero _, fun p => rfl⟩
    · obtain ⟨read, hread, hwalk⟩ := ih (bytes - c.utf8Size)
      refine ⟨c :: read, hread.cons hbytes, fun p => ?_⟩
      rw [walk, if_neg hbytes, hwalk, after_cons]

theorem line_after (p : Position) (cs : List Char) :
    (p.after cs).line = p.line + cs.count '\n' := by
  induction cs generalizing p with
  | nil => rfl
  | cons c cs ih =>
    rw [after_cons, ih, next]
    split
    next h => simp [h, Nat.add_comm, Nat.add_left_comm]
    next h => simp [h]

/-- Without a line break, every character is one column. -/
theorem column_after {cs : List Char} (h : '\n' ∉ cs) (p : Position) :
    (p.after cs).column = p.column + cs.length := by
  induction cs generalizing p with
  | nil => rfl
  | cons c cs ih =>
    obtain ⟨hc, hcs⟩ := List.ne_and_not_mem_of_not_mem_cons h
    rw [after_cons, ih hcs, next, if_neg (Ne.symm hc), List.length_cons, Nat.add_right_comm,
      Nat.add_assoc]

theorem column_after_congr {p q : Position} (h : p.column = q.column) (cs : List Char) :
    (p.after cs).column = (q.after cs).column := by
  induction cs generalizing p q with
  | nil => exact h
  | cons c cs ih =>
    refine ih ?_
    simp only [next]
    split <;> simp [h]

/-- Behind a line break the column does not depend on where the reading began. -/
theorem column_after_of_mem {cs : List Char} (h : '\n' ∈ cs) (p q : Position) :
    (p.after cs).column = (q.after cs).column := by
  induction cs generalizing p q with
  | nil => simp at h
  | cons c cs ih =>
    rw [after_cons, after_cons]
    by_cases hc : c = '\n'
    · exact column_after_congr (by simp [next, hc]) cs
    · exact ih (List.mem_of_ne_of_mem (Ne.symm hc) h) _ _

theorem column_next_le (p : Position) (c : Char) : (p.next c).column ≤ p.column + 1 := by
  rw [next]
  split <;> simp

theorem column_after_le (p : Position) (cs : List Char) :
    (p.after cs).column ≤ p.column + cs.length := by
  induction cs generalizing p with
  | nil => exact Nat.le_refl _
  | cons c cs ih =>
    rw [after_cons, List.length_cons]
    have hcs := ih (p.next c)
    have hc := p.column_next_le c
    omega

/-! ## The way back -/

/-- So many characters of one line are skipped. -/
theorem columnOffset_append {cs : List Char} (h : '\n' ∉ cs) (ds : List Char) :
    columnOffset (cs ++ ds) cs.length = utf8Len cs := by
  induction cs with
  | nil => cases ds <;> rfl
  | cons c cs ih =>
    obtain ⟨hc, hcs⟩ := List.ne_and_not_mem_of_not_mem_cons h
    simp only [List.cons_append, List.length_cons, columnOffset, if_neg (Ne.symm hc), ih hcs,
      String.utf8Len_cons]
    omega

/-- The line breaks and the columns of a run of characters lead behind it. -/
theorem lineOffset_append (cs ds : List Char) :
    lineOffset (cs ++ ds) (cs.count '\n') ((first.after cs).column - 1) = utf8Len cs := by
  induction cs with
  | nil => cases ds <;> rfl
  | cons c cs ih =>
    by_cases hmem : '\n' ∈ c :: cs
    · -- the line break may be the first character or a later one
      have hcolumn : (first.after (c :: cs)).column = (first.after cs).column := by
        by_cases hc : c = '\n'
        · exact column_after_congr (by simp [next, first, hc]) cs
        · exact column_after_of_mem (List.mem_of_ne_of_mem (Ne.symm hc) hmem) _ _
      obtain ⟨n, hn⟩ : ∃ n, (c :: cs).count '\n' = n + 1 :=
        Nat.exists_eq_succ_of_ne_zero (List.count_pos_iff.mpr hmem).ne'
      have hrest : (if c = '\n' then n else n + 1) = cs.count '\n' := by
        rw [List.count_cons] at hn
        split at hn <;> simp_all
      rw [hn, List.cons_append, lineOffset, hrest, hcolumn, ih, String.utf8Len_cons, Nat.add_comm]
    · rw [List.count_eq_zero_of_not_mem hmem, List.cons_append, lineOffset, ← List.cons_append,
        column_after hmem]
      simpa [first] using columnOffset_append hmem ds

theorem toOffset_after {content : String} {cs : List Char} (h : cs <+: content.toList) :
    (first.after cs).toOffset content = utf8Len cs := by
  obtain ⟨ds, hds⟩ := h
  have hline : (first.after cs).line - 1 = cs.count '\n' := by simp [line_after, first]
  rw [toOffset, ← hds, hline, lineOffset_append]

theorem exists_ofOffset_eq (content : String) (offset : Nat) :
    ∃ read, Reaches content.toList offset read ∧ ofOffset content offset = first.after read := by
  obtain ⟨read, hread, hwalk⟩ := exists_walk_eq content.toList offset
  exact ⟨read, hread, hwalk first⟩

/-- A text has no more lines than characters, and one; no line has more columns. -/
theorem ofOffset_le (content : String) (offset : Nat) :
    (ofOffset content offset).line ≤ content.length + 1 ∧
      (ofOffset content offset).column ≤ content.length + 1 := by
  obtain ⟨read, hread, hposition⟩ := exists_ofOffset_eq content offset
  have hlength : read.length ≤ content.length := by
    rw [← String.length_toList]
    exact hread.isPrefix.length_le
  have hline := line_after first read
  have hcolumn := column_after_le first read
  have hcount := List.count_le_length (a := '\n') (l := read)
  simp only [first] at hline hcolumn
  rw [hposition]
  simp only [first]
  omega

/-- The position of an offset leads back to the next boundary of characters, so that of a boundary
leads back to it.  In a text that is not too long the counters of lines and columns, and the count
after the last column, stay below `2 ^ 32` on the way. -/
theorem toOffset_ofOffset (content : String) (hlength : content.length < 2 ^ 32 - 2)
    (offset : Nat) :
    IsLeast {b | IsBoundary content b ∧ min offset content.utf8ByteSize ≤ b}
        ((ofOffset content offset).toOffset content) ∧
      (IsBoundary content offset → (ofOffset content offset).toOffset content = offset) ∧
      ∀ reached, (ofOffset content reached).line < 2 ^ 32 ∧
        (ofOffset content reached).column + 1 < 2 ^ 32 := by
  obtain ⟨read, hread, hposition⟩ := exists_ofOffset_eq content offset
  have hleast := hread.isLeast
  rw [← toOffset_after hread.isPrefix, ← hposition] at hleast
  refine ⟨hleast, fun hboundary => ?_, fun reached => ?_⟩
  · have hle : offset ≤ content.utf8ByteSize := hboundary.le_rawEndPos
    have hback := hleast.1.2
    rw [Nat.min_eq_left hle] at hback
    exact Nat.le_antisymm (hleast.2 ⟨hboundary, Nat.min_le_left _ _⟩) hback
  · have hle := ofOffset_le content reached
    omega

/-- An offset inside a character of two bytes, behind a line break. -/
theorem toOffset_ofOffset_insideCharacter :
    "a\nbé".length < 2 ^ 32 - 2 ∧ ¬ IsBoundary "a\nbé" 4 ∧ ofOffset "a\nbé" 4 = ⟨2, 3⟩ ∧
      IsLeast {b | IsBoundary "a\nbé" b ∧ min 4 "a\nbé".utf8ByteSize ≤ b} 5 := by
  have hlength : "a\nbé".length < 2 ^ 32 - 2 := by decide
  have hback : (ofOffset "a\nbé" 4).toOffset "a\nbé" = 5 := by decide
  have hleast := (toOffset_ofOffset "a\nbé" hlength 4).1
  rw [hback] at hleast
  refine ⟨hlength, fun hboundary => ?_, by decide, hleast⟩
  exact absurd (hleast.2 ⟨hboundary, by decide⟩) (by decide)

end Position

end CallFill.Text
