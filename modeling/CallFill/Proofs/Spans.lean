import CallFill.Proofs.Neighbours

/-!
# Spans

The span of a place is the span of its text: in front of it stand the tokens to the left and the
trivia before its first text, behind it the trivia after its last text and the tokens to the right.
A span lies within the spans above it.
-/

namespace CallFill

namespace Token

/-- The trivia before the first text of a run. -/
def leadingText (ts : List Token) : String := (ts.head?.map leading).getD ""

/-- The trivia after the last text of a run. -/
def trailingText (ts : List Token) : String := (ts.getLast?.map trailing).getD ""

theorem leadingWidth_eq (ts : List Token) : leadingWidth ts = (leadingText ts).utf8ByteSize := by
  cases ts <;> rfl

theorem trailingWidth_eq (ts : List Token) :
    trailingWidth ts = (trailingText ts).utf8ByteSize := by
  rw [trailingWidth, trailingText]
  cases ts.getLast? <;> rfl

theorem upToLast_cons (t u : Token) (us : List Token) :
    upToLast (t :: u :: us) = t.whole ++ upToLast (u :: us) := by
  simp [upToLast]

theorem inner_cons (t u : Token) (us : List Token) :
    inner (t :: u :: us) = t.text ++ t.trailing ++ upToLast (u :: us) := by
  simp [inner]

theorem upToLast_append (ts : List Token) : upToLast ts ++ trailingText ts = wholeAll ts := by
  induction ts with
  | nil => rfl
  | cons t ts ih =>
      cases ts with
      | nil => simp [upToLast, trailingText, whole]
      | cons u us =>
          have hlast : trailingText (t :: u :: us) = trailingText (u :: us) := rfl
          rw [upToLast_cons, hlast, String.append_assoc, ih, wholeAll_cons t]

/-- The text of a run stands between the trivia at its two ends. -/
theorem wholeAll_eq (ts : List Token) :
    wholeAll ts = leadingText ts ++ inner ts ++ trailingText ts := by
  match ts with
  | [] => rfl
  | [t] => simp [leadingText, inner, trailingText, whole]
  | t :: u :: us =>
      have hlast : trailingText (t :: u :: us) = trailingText (u :: us) := rfl
      rw [wholeAll_cons, ← upToLast_append, hlast, inner_cons]
      simp [leadingText, whole, String.append_assoc]

theorem widthAll_inner (ts : List Token) :
    widthAll ts = leadingWidth ts + (inner ts).utf8ByteSize + trailingWidth ts := by
  rw [widthAll_eq, wholeAll_eq, String.utf8ByteSize_append, String.utf8ByteSize_append,
    leadingWidth_eq, trailingWidth_eq]

theorem leadingWidth_append_le (ts us : List Token) :
    leadingWidth (ts ++ us) ≤ widthAll ts + leadingWidth us := by
  cases ts with
  | nil => simp
  | cons t ts =>
      simp only [leadingWidth, List.cons_append, List.head?_cons, widthAll_cons, width]
      omega

theorem trailingWidth_append_le (ts us : List Token) :
    trailingWidth (ts ++ us) ≤ trailingWidth ts + widthAll us := by
  rcases List.eq_nil_or_concat us with rfl | ⟨vs, u, rfl⟩
  · simp
  · have hlast : trailingWidth (ts ++ (vs ++ [u])) = u.trailing.utf8ByteSize := by
      simp [trailingWidth]
    rw [List.concat_eq_append, hlast]
    simp only [widthAll_append, widthAll_cons, widthAll_nil, width]
    omega

theorem leadingWidth_append {ts us : List Token} (h : ts ≠ []) :
    leadingWidth (ts ++ us) = leadingWidth ts := by
  cases ts with
  | nil => exact absurd rfl h
  | cons t ts => rfl

theorem trailingWidth_append {ts us : List Token} (h : us ≠ []) :
    trailingWidth (ts ++ us) = trailingWidth us := by
  rw [trailingWidth, trailingWidth, List.getLast?_append, List.getLast?_eq_some_getLast h]
  rfl

theorem upToLast_ne_empty {ts : List Token} {t : Token} (ht : t ∈ ts) (h : t.text ≠ "") :
    upToLast ts ≠ "" := by
  induction ts with
  | nil => cases ht
  | cons u us ih =>
      cases us with
      | nil =>
          obtain rfl := List.mem_singleton.mp ht
          simp [upToLast, h]
      | cons v vs =>
          rw [upToLast_cons]
          rcases List.mem_cons.mp ht with rfl | ht
          · simp [whole, h]
          · simp [ih ht]

/-- A token with a text gives its run a text. -/
theorem inner_ne_empty {ts : List Token} {t : Token} (ht : t ∈ ts) (h : t.text ≠ "") :
    inner ts ≠ "" := by
  match ts with
  | [u] =>
      obtain rfl := List.mem_singleton.mp ht
      simpa [inner] using h
  | u :: v :: vs =>
      rw [inner_cons]
      rcases List.mem_cons.mp ht with rfl | ht
      · simp [h]
      · simp [upToLast_ne_empty ht h]

/-- Trivia is not all there is to a run with a text. -/
theorem trailingWidth_lt_widthAll {ts : List Token} {t : Token} (ht : t ∈ ts) (h : t.text ≠ "") :
    trailingWidth ts < widthAll ts := by
  have hpos : (inner ts).utf8ByteSize ≠ 0 := fun hzero =>
    inner_ne_empty ht h (String.utf8ByteSize_eq_zero_iff.mp hzero)
  have hwidth := widthAll_inner ts
  omega

end Token

open Text

namespace Place

/-! ## The text of a span -/

theorem whole_focus (p : Place) : p.focus.whole = Token.leadingText p.focus.tokens ++ p.text ++
    Token.trailingText p.focus.tokens := Token.wholeAll_eq _

theorem width_focus (p : Place) :
    p.focus.width = p.focus.leadingWidth + p.text.utf8ByteSize + p.focus.trailingWidth := by
  rw [Tree.width_eq]
  exact Token.widthAll_inner _

theorem span_start (p : Place) : p.span.start = p.start + p.focus.leadingWidth := rfl

theorem span_stop (p : Place) : p.span.stop = p.span.start + p.text.utf8ByteSize := by
  have h := p.width_focus
  simp only [span]
  omega

/-- The text of a place stands where its span says. -/
theorem around_text (p : Place) :
    p.root.whole = Token.wholeAll (tokensLeft p.above) ++ Token.leadingText p.focus.tokens ++
        p.text ++ (Token.trailingText p.focus.tokens ++ Token.wholeAll (tokensRight p.above)) ∧
      (Token.wholeAll (tokensLeft p.above) ++
        Token.leadingText p.focus.tokens).utf8ByteSize = p.span.start ∧
      (Token.wholeAll (tokensLeft p.above) ++
        Token.leadingText p.focus.tokens).utf8ByteSize + p.text.utf8ByteSize = p.span.stop := by
  have hstart : (Token.wholeAll (tokensLeft p.above) ++
      Token.leadingText p.focus.tokens).utf8ByteSize = p.span.start := by
    rw [String.utf8ByteSize_append, ← start_eq, span_start, Tree.leadingWidth,
      Token.leadingWidth_eq]
  refine ⟨?_, hstart, ?_⟩
  · rw [whole_root, whole_focus]
    simp only [String.append_assoc]
  · rw [hstart, span_stop]

theorem span_start_lt_stop {p : Place} (h : p.text ≠ "") : p.span.start < p.span.stop := by
  have hpos : p.text.utf8ByteSize ≠ 0 := fun hzero => h (String.utf8ByteSize_eq_zero_iff.mp hzero)
  rw [span_stop]
  omega

theorem text_ne_empty_of_lt {p : Place} (h : p.span.start < p.span.stop) : p.text ≠ "" := by
  rw [span_stop] at h
  rw [ne_eq, ← String.utf8ByteSize_eq_zero_iff]
  omega

theorem fullSpan_contains_span (p : Place) : p.fullSpan.contains p.span = true := by
  rw [Span.contains_iff]
  simp only [fullSpan, span]
  omega

theorem isEmpty_span (p : Place) : p.span.isEmpty = true ↔ p.text = "" := by
  simp only [Span.isEmpty, span_stop, beq_iff_eq]
  rw [← String.utf8ByteSize_eq_zero_iff]
  omega

/-! ## Spans above -/

/-- The full span of a place lies within those of the places above it. -/
theorem fullSpan_ancestor_contains {p q : Place} (h : p ∈ q.ancestors) :
    p.start ≤ q.start ∧ q.fullSpan.stop ≤ p.fullSpan.stop := by
  obtain ⟨t, fs⟩ := q
  induction fs generalizing t with
  | nil =>
      obtain rfl : p = ⟨t, []⟩ := by simpa [ancestors, ancestorsFrom] using h
      exact ⟨Nat.le_refl _, Nat.le_refl _⟩
  | cons f fs ih =>
      rw [ancestors_cons] at h
      rcases List.mem_cons.mp h with rfl | h
      · exact ⟨Nat.le_refl _, Nat.le_refl _⟩
      · have hwidth := f.width_fill t
        have habove := ih (f.fill t) h
        simp only [fullSpan, start_cons] at habove ⊢
        omega

theorem span_parent_contains {t : Tree} {f : Frame} {fs : List Frame} (h : t.tokens ≠ []) :
    (span ⟨f.fill t, fs⟩).contains (span ⟨t, f :: fs⟩) = true := by
  have htokens := f.tokens_fill t
  have hwidth := f.width_fill t
  have hlead : (f.fill t).leadingWidth ≤ f.offset + t.leadingWidth := by
    have hle := Token.leadingWidth_append_le (Tree.tokensAll f.before.reverse)
      (t.tokens ++ Tree.tokensAll f.after)
    rwa [← List.append_assoc, ← htokens, Token.leadingWidth_append h, Token.widthAll_eq,
      ← offset_eq] at hle
  have htrail : (f.fill t).trailingWidth ≤
      t.trailingWidth + Token.widthAll (Tree.tokensAll f.after) := by
    have hle := Token.trailingWidth_append_le (Tree.tokensAll f.before.reverse ++ t.tokens)
      (Tree.tokensAll f.after)
    rwa [← htokens, Token.trailingWidth_append h] at hle
  rw [Span.contains_iff]
  simp only [span, start_cons]
  omega

/-- A place in front of a text ends before its parent does. -/
theorem span_stop_lt_parent {t : Tree} {f : Frame} {fs : List Frame} {u : Token}
    (hu : u ∈ Tree.tokensAll f.after) (htext : u.text ≠ "") :
    (span ⟨t, f :: fs⟩).stop < (span ⟨f.fill t, fs⟩).stop := by
  have hwidth := f.width_fill t
  have htrail : (f.fill t).trailingWidth = Token.trailingWidth (Tree.tokensAll f.after) := by
    rw [Tree.trailingWidth, f.tokens_fill, Token.trailingWidth_append (List.ne_nil_of_mem hu)]
  have hlt := Token.trailingWidth_lt_widthAll hu htext
  simp only [span, start_cons]
  omega

end Place

end CallFill
