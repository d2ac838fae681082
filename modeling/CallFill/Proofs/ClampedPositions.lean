import CallFill.Proofs.LinesAndColumns

/-!
# Clamped positions

The byte offset of a position always stands in front of a character or at the end of the text, and
the position of that offset is the one that was asked for as far as the text has it.  A line that
the text has is reached behind so many line breaks; a column behind the end of its line is drawn
back to that end.  A line behind the last one is drawn back to the end of the text.
-/

namespace CallFill.Text

open String (utf8Len)

/-- The lines of a text without their line breaks. -/
def lines (content : String) : List (List Char) := content.toList.splitOn '\n'

namespace Position

@[simp] theorem after_append (p : Position) (cs ds : List Char) :
    p.after (cs ++ ds) = (p.after cs).after ds := List.foldl_append

/-- Without a line break the line stays. -/
theorem after_of_not_mem {cs : List Char} (h : '\n' ∉ cs) (p : Position) :
    p.after cs = ⟨p.line, p.column + cs.length⟩ := by
  have hline := line_after p cs
  rw [List.count_eq_zero_of_not_mem h, Nat.add_zero] at hline
  rw [← hline, ← column_after h p]

/-! ## Offsets on a line -/

/-- Columns past the end of a line count as its end. -/
theorem columnOffset_line {line rest : List Char} (hline : '\n' ∉ line)
    (hrest : ∀ c ∈ rest.head?, c = '\n') (columns : Nat) :
    columnOffset (line ++ rest) columns = utf8Len (line.take columns) := by
  induction line generalizing columns with
  | nil =>
      rw [List.nil_append, List.take_nil]
      rcases rest with _ | ⟨c, rest⟩
      · rfl
      · obtain rfl : c = '\n' := hrest c rfl
        cases columns <;> rfl
  | cons c line ih =>
      obtain ⟨hc, hline⟩ := List.ne_and_not_mem_of_not_mem_cons hline
      cases columns with
      | zero => rfl
      | succ columns =>
          rw [List.cons_append, columnOffset, if_neg (Ne.symm hc), ih hline, List.take_succ_cons,
            String.utf8Len_cons, Nat.add_comm]

/-- The first line break takes one of those to be skipped. -/
theorem lineOffset_line {line : List Char} (hline : '\n' ∉ line) (rest : List Char)
    (breaks columns : Nat) : lineOffset (line ++ '\n' :: rest) (breaks + 1) columns =
      utf8Len (line ++ ['\n']) + lineOffset rest breaks columns := by
  induction line with
  | nil => simp [lineOffset]
  | cons c line ih =>
      obtain ⟨hc, hline⟩ := List.ne_and_not_mem_of_not_mem_cons hline
      rw [List.cons_append, lineOffset, if_neg (Ne.symm hc), ih hline, List.cons_append,
        String.utf8Len_cons]
      omega

/-- With more line breaks to skip than there are, all is skipped. -/
theorem lineOffset_of_count_lt {cs : List Char} {breaks : Nat} (h : cs.count '\n' < breaks)
    (columns : Nat) : lineOffset cs breaks columns = utf8Len cs := by
  induction cs generalizing breaks with
  | nil =>
      obtain ⟨breaks, rfl⟩ := Nat.exists_eq_succ_of_ne_zero (Nat.ne_of_gt h)
      rfl
  | cons c cs ih =>
      obtain ⟨breaks, rfl⟩ := Nat.exists_eq_succ_of_ne_zero (Nat.ne_of_gt (Nat.zero_lt_of_lt h))
      have hrest : cs.count '\n' < if c = '\n' then breaks else breaks + 1 := by
        rw [List.count_cons] at h
        split <;> simp_all
      rw [lineOffset, ih hrest, String.utf8Len_cons, Nat.add_comm]

/-- Where a line begins and what it holds. -/
structure OnLine (cs : List Char) (breaks : Nat) (before line : List Char) : Prop where
  isPrefix : before ++ line <+: cs
  getElem : (cs.splitOn '\n')[breaks]? = some line
  noBreak : '\n' ∉ line
  position : ∀ number, (⟨number, 1⟩ : Position).after before = ⟨number + breaks, 1⟩
  offset : ∀ columns, lineOffset cs breaks columns = utf8Len (before ++ line.take columns)

theorem exists_onLine {cs : List Char} {breaks : Nat} (h : breaks ≤ cs.count '\n') :
    ∃ before line, OnLine cs breaks before line := by
  induction breaks generalizing cs with
  | zero =>
      by_cases hmem : '\n' ∈ cs
      · obtain ⟨line, rest, rfl, hline⟩ := List.eq_append_cons_of_mem hmem
        refine ⟨[], line, ⟨by simp, ?_, hline, fun number => rfl, fun columns => ?_⟩⟩
        · rw [List.splitOn_append_cons_self_of_not_mem hline]
          rfl
        · rw [lineOffset, columnOffset_line hline (by simp)]
          rfl
      · refine ⟨[], cs, ⟨by simp, ?_, hmem, fun number => rfl, fun columns => ?_⟩⟩
        · rw [List.splitOn_eq_singleton hmem]
          rfl
        · have hline : columnOffset (cs ++ []) columns = utf8Len (cs.take columns) :=
            columnOffset_line hmem (by simp) columns
          rw [List.append_nil] at hline
          rw [lineOffset, hline]
          rfl
  | succ breaks ih =>
      have hmem : '\n' ∈ cs := List.count_pos_iff.mp (Nat.zero_lt_of_lt h)
      obtain ⟨top, rest, rfl, htop⟩ := List.eq_append_cons_of_mem hmem
      have hcount : breaks ≤ rest.count '\n' := by
        simpa [List.count_append, List.count_eq_zero_of_not_mem htop] using h
      obtain ⟨before, line, hon⟩ := ih hcount
      refine ⟨top ++ '\n' :: before, line, ⟨?_, ?_, hon.noBreak, fun number => ?_,
        fun columns => ?_⟩⟩
      · simpa using hon.isPrefix
      · rw [List.splitOn_append_cons_self_of_not_mem htop, List.getElem?_cons_succ, hon.getElem]
      · have hnext : ((⟨number, 1⟩ : Position).after top).next '\n' = ⟨number + 1, 1⟩ := by
          rw [after_of_not_mem htop, next, if_pos rfl]
        rw [after_append, after_cons, hnext, hon.position, Nat.add_right_comm, Nat.add_assoc]
      · rw [lineOffset_line htop, hon.offset, ← String.utf8Len_append]
        simp

/-! ## The position of the offset -/

theorem walk_append (cs ds : List Char) (p : Position) :
    walk (cs ++ ds) (utf8Len cs) p = p.after cs := by
  induction cs generalizing p with
  | nil => cases ds <;> rfl
  | cons c cs ih =>
      have hpos := c.utf8Size_pos
      rw [List.cons_append, walk, String.utf8Len_cons, if_neg (by omega), Nat.add_sub_cancel, ih,
        after_cons]

theorem ofOffset_utf8Len {content : String} {cs : List Char} (h : cs <+: content.toList) :
    ofOffset content (utf8Len cs) = first.after cs := by
  obtain ⟨ds, hds⟩ := h
  rw [ofOffset, ← hds, walk_append]

/-- On a line that the text has, the column is drawn back to the end of the line. -/
theorem OnLine.after_take {cs before line : List Char} {breaks : Nat}
    (h : OnLine cs breaks before line) (columns : Nat) :
    first.after (before ++ line.take columns) =
      ⟨breaks + 1, min (columns + 1) (line.length + 1)⟩ := by
  have hbefore : first.after before = ⟨breaks + 1, 1⟩ := by
    rw [first, h.position, Nat.add_comm]
  have hmem : '\n' ∉ line.take columns := fun hmem => h.noBreak (List.mem_of_mem_take hmem)
  rw [after_append, hbefore, after_of_not_mem hmem, List.length_take, Nat.add_comm 1,
    Nat.add_min_add_right]

/-- The offset of a position is that of a boundary, and leads back to the position with its line and
its column drawn back to what the text has.  In a text that is not too long the counters of lines
and columns, and the count after the last column, stay below `2 ^ 32` on the way. -/
theorem ofOffset_toOffset (content : String) (hlength : content.length < 2 ^ 32 - 2)
    (p : Position) :
    IsBoundary content (p.toOffset content) ∧
      (max p.line 1 - 1 ≤ content.toList.count '\n' →
        ∃ line, (lines content)[max p.line 1 - 1]? = some line ∧ line.length + 2 < 2 ^ 32 ∧
          ofOffset content (p.toOffset content) =
            ⟨max p.line 1, min (max p.column 1) (line.length + 1)⟩) ∧
      (content.toList.count '\n' < max p.line 1 - 1 →
        p.toOffset content = content.utf8ByteSize ∧
          ofOffset content (p.toOffset content) = ofOffset content content.utf8ByteSize) ∧
      ∀ reached, (ofOffset content reached).line < 2 ^ 32 ∧
        (ofOffset content reached).column + 1 < 2 ^ 32 := by
  have hcounters (reached : Nat) : (ofOffset content reached).line < 2 ^ 32 ∧
      (ofOffset content reached).column + 1 < 2 ^ 32 := by
    have hle := ofOffset_le content reached
    omega
  have hbreaks : p.line - 1 = max p.line 1 - 1 := by omega
  by_cases hcount : max p.line 1 - 1 ≤ content.toList.count '\n'
  · obtain ⟨before, line, hon⟩ := exists_onLine hcount
    have hread : before ++ line.take (p.column - 1) <+: content.toList :=
      ((List.prefix_append_right_inj before).mpr (line.take_prefix _)).trans hon.isPrefix
    have hoffset : p.toOffset content = utf8Len (before ++ line.take (p.column - 1)) := by
      rw [toOffset, hbreaks, hon.offset]
    have hfit : line.length ≤ content.length := by
      have hle := hon.isPrefix.length_le
      rw [List.length_append, String.length_toList] at hle
      omega
    refine ⟨isBoundary_iff.mpr ⟨_, hread, hoffset.symm⟩,
      fun _ => ⟨line, hon.getElem, by omega, ?_⟩, fun hlt => by omega, hcounters⟩
    rw [hoffset, ofOffset_utf8Len hread, hon.after_take, Position.mk.injEq]
    omega
  · have hoffset : p.toOffset content = content.utf8ByteSize := by
      rw [toOffset, hbreaks, lineOffset_of_count_lt (by omega), String.utf8Len_toList]
    refine ⟨isBoundary_iff.mpr ⟨content.toList, List.prefix_rfl, ?_⟩,
      fun hle => absurd hle hcount, fun _ => ⟨hoffset, by rw [hoffset]⟩, hcounters⟩
    rw [hoffset, String.utf8Len_toList]

/-- A column behind the end of the second line, and a line behind the last one. -/
theorem ofOffset_toOffset_behindLine :
    "a\nbé\n".length < 2 ^ 32 - 2 ∧ (lines "a\nbé\n")[1]? = some ['b', 'é'] ∧
      ofOffset "a\nbé\n" (toOffset "a\nbé\n" ⟨2, 9⟩) = ⟨2, 3⟩ ∧
      toOffset "a\nbé\n" ⟨7, 0⟩ = 6 := by
  have hlength : "a\nbé\n".length < 2 ^ 32 - 2 := by decide
  have hlines : lines "a\nbé\n" = [['a'], ['b', 'é'], []] := by decide
  obtain ⟨line, hline, -, hback⟩ := (ofOffset_toOffset "a\nbé\n" hlength ⟨2, 9⟩).2.1 (by decide)
  have hend := (ofOffset_toOffset "a\nbé\n" hlength ⟨7, 0⟩).2.2.1 (by decide)
  rw [hlines] at hline
  obtain rfl : ['b', 'é'] = line := Option.some.inj hline
  exact ⟨hlength, by rw [hlines]; rfl, hback, hend.1⟩

end Position

end CallFill.Text
