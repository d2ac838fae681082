import CallFill.Proofs.LineFeed
import CallFill.Proofs.Spans

/-!
# The text inside a run of tokens

The text of a run is what is left without the trivia at its two ends.  It is cut into the tokens of
the run again, the first of them without leading and the last without trailing trivia, since a token
that was cut off before a text is cut off before a shorter one as well.  So such a text begins and
ends as a token does: not with white space, and not with a comment.
-/

namespace CallFill

namespace Lexical

/-! ## Before shorter texts -/

/-- What is cut off before a text is cut off before a shorter one. -/
structure Shortens (f : List Char → List Char × List Char) : Prop where
  shorter : ∀ {u x y : List Char}, f (u ++ (x ++ y)) = (u, x ++ y) → f (u ++ x) = (u, x)

theorem Shortens.andThen {f g : List Char → List Char × List Char} (hf : Shortens f)
    (hg : Shortens g) (hsplits : Splits g) : Shortens (andThen f g) where
  shorter h := by
    obtain ⟨a, b, rfl, hfab, hgb⟩ := (andThen_eq hsplits).mp h
    rw [List.append_assoc, ← List.append_assoc b] at hfab
    exact (andThen_eq hsplits).mpr ⟨a, b, rfl, by simpa using hf.shorter hfab, hg.shorter hgb⟩

theorem shortens_run (p : Char → Bool) : Shortens (run p) where
  shorter h := by
    obtain ⟨-, hu, hstop⟩ := run_eq.mp h
    refine run_eq.mpr ⟨rfl, hu, fun c hc => hstop c ?_⟩
    obtain ⟨x, rfl⟩ := List.head?_eq_some_iff.mp hc
    rfl

theorem shortens_comment : Shortens comment where
  shorter {u x y} h := by
    cases u with
    | nil =>
        refine comment_eq_nil ?_
        rintro ds rfl
        simp [comment] at h
    | cons c u =>
        obtain ⟨ns, ds, rfl, rfl, hcs, hrun⟩ := eq_of_comment h
        obtain rfl : ns ++ (x ++ y) = ds := by simpa using hcs
        have hshort := (shortens_run _).shorter hrun
        simp only [run, Prod.mk.injEq] at hshort
        rw [List.cons_append, List.cons_append, comment, hshort.1, hshort.2]

theorem shortens_lineBreak : Shortens lineBreak where
  shorter {u x y} h := by
    by_cases hu : u = []
    · obtain rfl := hu
      refine lineBreak_eq_nil ?_ ?_
      · rintro ds rfl
        cases h
      · rintro ds rfl
        cases h
    · exact (lineBreak_append_of_ne h hu x).2

theorem shortens_trailing : Shortens trailing := by
  rw [trailing_eq_andThen]
  exact ((shortens_run _).andThen shortens_comment splits_comment).andThen shortens_lineBreak
    splits_lineBreak

/-- A token that is cut off before a text is cut off before a shorter one. -/
theorem Settles.of_append {t : Token} {x y : List Char} (h : Settles t (x ++ y)) :
    Settles t x := by
  obtain ⟨hl, hw, ht⟩ := settles_iff.mp h
  refine settles_iff.mpr ⟨leading_congr hw hl _, ?_, shortens_trailing.shorter ht⟩
  rw [← List.append_assoc] at hw
  exact hw.of_append

end Lexical

/-! ## Without the outer trivia -/

namespace Token

/-- The run without the trailing trivia of its last token. -/
def trimEnd : List Token → List Token
  | [] => []
  | [t] => [{ t with trailing := "" }]
  | t :: ts => t :: trimEnd ts

/-- The run without the trivia at its two ends. -/
def trim : List Token → List Token
  | [] => []
  | t :: ts => trimEnd ({ t with leading := "" } :: ts)

theorem trimEnd_cons (t u : Token) (us : List Token) :
    trimEnd (t :: u :: us) = t :: trimEnd (u :: us) := rfl

theorem wholeAll_trimEnd (ts : List Token) : wholeAll (trimEnd ts) = upToLast ts := by
  induction ts with
  | nil => rfl
  | cons t ts ih =>
      cases ts with
      | nil => simp [trimEnd, upToLast, whole]
      | cons u us => rw [trimEnd_cons, wholeAll_cons, ih, upToLast_cons]

theorem inner_eq_upToLast (t : Token) (ts : List Token) :
    inner (t :: ts) = upToLast ({ t with leading := "" } :: ts) := by
  cases ts with
  | nil => simp [inner, upToLast]
  | cons u us =>
      rw [upToLast_cons, inner_cons]
      simp [whole]

theorem wholeAll_trim (ts : List Token) : wholeAll (trim ts) = inner ts := by
  cases ts with
  | nil => rfl
  | cons t ts => rw [trim, wholeAll_trimEnd, inner_eq_upToLast]

/-! ## First and last texts -/

theorem text_prefix_inner (t : Token) (ts : List Token) :
    t.text.toList <+: (inner (t :: ts)).toList := by
  cases ts with
  | nil => exact List.prefix_rfl
  | cons u us =>
      rw [inner_cons, String.append_assoc, String.toList_append]
      exact List.prefix_append _ _

theorem text_suffix_upToLast {ts : List Token} {u : Token} (h : ts.getLast? = some u) :
    u.text.toList <:+ (upToLast ts).toList := by
  induction ts with
  | nil => cases h
  | cons t ts ih =>
      cases ts with
      | nil =>
          obtain rfl : t = u := Option.some.inj h
          rw [upToLast, String.toList_append]
          exact List.suffix_append _ _
      | cons v vs =>
          rw [upToLast_cons, String.toList_append]
          exact (ih h).trans (List.suffix_append _ _)

theorem text_suffix_inner {ts : List Token} {u : Token} (h : ts.getLast? = some u) :
    u.text.toList <:+ (inner ts).toList := by
  match ts with
  | [t] =>
      obtain rfl : t = u := Option.some.inj h
      exact List.suffix_rfl
  | t :: v :: vs =>
      rw [inner_eq_upToLast]
      exact text_suffix_upToLast h

end Token

namespace Lexical

open Token

variable {t : Token} {ts : List Token} {x : List Char}

theorem Settles.without_leading (h : Settles t x) : Settles { t with leading := "" } x := by
  obtain ⟨-, hw, ht⟩ := settles_iff.mp h
  exact settles_of_lexeme hw ht

theorem Settles.without_trailing (h : Settles t x) : Settles { t with trailing := "" } [] := by
  obtain ⟨hl, hw, -⟩ := settles_iff.mp h
  exact settles_iff.mpr ⟨leading_congr hw hl _, hw.nil, rfl⟩

/-- The texts of a settled run are those of tokens. -/
theorem Settled.spelled (h : Settled ts x) : ∀ t ∈ ts, t.Spelled := by
  induction ts with
  | nil => simp
  | cons t ts ih => exact List.forall_mem_cons.mpr ⟨(settles_iff.mp h.1).2.1.nil, ih h.2⟩

theorem Settled.trimEnd (h : Settled ts x) : Settled (trimEnd ts) [] := by
  induction ts with
  | nil => trivial
  | cons t ts ih =>
      cases ts with
      | nil => exact ⟨h.1.without_trailing, trivial⟩
      | cons u us =>
          refine ⟨?_, ih h.2⟩
          have ht := h.1
          rw [← upToLast_append, String.toList_append, List.append_assoc] at ht
          rw [wholeAll_trimEnd, List.append_nil]
          exact ht.of_append

theorem Settled.trim (h : Settled ts x) : Settled (trim ts) [] := by
  cases ts with
  | nil => trivial
  | cons t ts =>
      have hfirst : Settled ({ t with leading := "" } :: ts) x := ⟨h.1.without_leading, h.2⟩
      exact hfirst.trimEnd

/-- The text of a run is cut into its tokens without the outer trivia. -/
theorem tokens_inner (h : Settled ts x) : tokens (inner ts).toList = (Token.trim ts, []) := by
  refine tokens_eq.mpr ⟨?_, h.trim, rfl⟩
  rw [wholeAll_trim, List.append_nil]

/-! ## The ends of a text -/

/-- The last character of a token is no white space. -/
theorem Lexeme.not_isBlank_getLast? {k : TokenKind} {w : List Char} (h : Lexeme k w x) :
    ∀ c ∈ w.getLast?, Text.isBlank c = false := by
  intro c hc
  refine Bool.eq_false_iff.mpr fun hb => ?_
  have hdivides := divides_of_isBlank hb
  have hmem := List.mem_of_getLast? hc
  cases h with
  | word h => exact hdivides.word _ h.holds hmem
  | number h => exact hdivides.number _ h.holds hmem
  | string h =>
      obtain rfl : '"' = c := by simpa [List.getLast?_cons, h.getLast?] using hc
      exact absurd hb (by decide)
  | mark h =>
      cases k <;> simp only [mark?, Option.some.injEq, reduceCtorEq] at h <;>
        obtain rfl := String.ofList_injective (h.symm.trans String.ofList_toList.symm) <;>
        cases hc <;> exact absurd hb (by decide)

end Lexical

end CallFill
