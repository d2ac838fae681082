import Mathlib.Data.List.Basic
import CallFill.Offer.Rewrite

/-!
# What a label shows

The label of an overload begins at the last dot before the first parenthesis of the display form.
When the declaring type has no parenthesis, that dot is the one before the name of the method, and
the label shows the name and the parameter types.  A parenthesis in the declaring type, as in the
type argument `(int, string)`, comes before the one that begins the parameters: the label then shows
the declaring type from a dot before that parenthesis on, or all of it.
-/

namespace CallFill

namespace Text

theorem afterLast_append {sep : Char} {part : List Char} (h : sep ∉ part) (cs : List Char) :
    afterLast sep (cs ++ sep :: part) = part := by
  have hpart : ∀ c ∈ part.reverse, (c != sep) = true := by
    intro c hc
    exact bne_iff_ne.mpr fun heq => h (heq ▸ List.mem_reverse.mp hc)
  rw [afterLast, List.reverse_append, List.reverse_cons, List.append_assoc,
    List.takeWhile_append_of_pos hpart]
  simp

end Text

namespace Offer

/-! ## Where the label begins -/

/-- What a label shows of the declaring type. -/
inductive Keeps : List Char → List Char → Prop
  | nothing {declaring : List Char} (hdeclaring : '(' ∉ declaring) : Keeps declaring []
  | fromDot {skipped part : List Char} (hskipped : '(' ∉ skipped) (hdot : '.' ∉ part)
      (hparen : '(' ∉ part) (rest : List Char) :
      Keeps (skipped ++ '.' :: part ++ '(' :: rest) ('.' :: part ++ '(' :: rest)
  | all {part : List Char} (hdot : '.' ∉ part) (hparen : '(' ∉ part) (rest : List Char) :
      Keeps (part ++ '(' :: rest) (part ++ '(' :: rest)

theorem Keeps.eq_nil_iff {declaring kept : List Char} (h : Keeps declaring kept) :
    kept = [] ↔ '(' ∉ declaring := by
  cases h with
  | nothing hdeclaring => simp [hdeclaring]
  | fromDot => simp
  | all => simp

theorem memberPart_paren {before : List Char} (hbefore : '(' ∉ before) (rest : List Char) :
    memberPart (before ++ '(' :: rest) =
      if '.' ∈ before then '.' :: Text.afterLast '.' before ++ '(' :: rest
      else before ++ '(' :: rest := by
  have hplain : ∀ c ∈ before, (c != '(') = true := by
    intro c hc
    exact bne_iff_ne.mpr fun heq => hbefore (heq ▸ hc)
  have htake : (before ++ '(' :: rest).takeWhile (· != '(') = before := by
    rw [List.takeWhile_append_of_pos hplain]
    simp
  have hdrop : (before ++ '(' :: rest).dropWhile (· != '(') = '(' :: rest := by
    rw [List.dropWhile_append_of_pos hplain]
    simp
  simp [memberPart, htake, hdrop]

theorem exists_keeps (declaring : List Char) {name : List Char} (hdot : '.' ∉ name)
    (hparen : '(' ∉ name) (rest : List Char) :
    ∃ kept, Keeps declaring kept ∧
      memberPart (declaring ++ '.' :: name ++ '(' :: rest) =
        kept ++ '.' :: name ++ '(' :: rest := by
  by_cases hdeclaring : '(' ∈ declaring
  · obtain ⟨before, more, rfl, hbefore⟩ := List.eq_append_cons_of_mem hdeclaring
    have hpart := memberPart_paren hbefore (more ++ '.' :: name ++ '(' :: rest)
    by_cases hmem : '.' ∈ before
    · -- the last dot is the first one from behind
      obtain ⟨part, skipped, hrev, hpartDot⟩ :=
        List.eq_append_cons_of_mem (List.mem_reverse.mpr hmem)
      obtain rfl : before = skipped.reverse ++ '.' :: part.reverse := by
        rw [← List.reverse_reverse before, hrev]
        simp
      rw [if_pos hmem, Text.afterLast_append (by simpa using hpartDot)] at hpart
      simp only [List.mem_append, List.mem_cons, not_or] at hbefore
      exact ⟨_, .fromDot hbefore.1 (by simpa using hpartDot) hbefore.2.2 more, by simpa using hpart⟩
    · rw [if_neg hmem] at hpart
      exact ⟨_, .all hmem hbefore more, by simpa using hpart⟩
  · have hbefore : '(' ∉ declaring ++ '.' :: name := by simp [hdeclaring, hparen]
    refine ⟨[], .nothing hdeclaring, ?_⟩
    rw [memberPart_paren hbefore, if_pos (by simp), Text.afterLast_append hdot]
    rfl

/-! ## What is shown -/

/-- What is shown of a text where there is room for so many characters. -/
structure ShownWithin (limit : Nat) (text shown : List Char) : Prop where
  whole : text.length ≤ limit → shown = text
  dotted : limit < text.length → 3 < limit → shown = text.take (limit - 3) ++ ['.', '.', '.']
  short : limit < text.length → limit ≤ 3 → shown = text.take limit

theorem shownWithin_bound (text : List Char) (limit : Nat) :
    ShownWithin limit text (bound text limit) where
  whole hfit := if_pos hfit
  dotted hlong hroom := by rw [bound, if_neg (by omega), if_neg (by omega)]
  short hlong hroom := by rw [bound, if_neg (by omega), if_pos hroom]

/-- With room for both, no two texts are shown alike. -/
theorem ShownWithin.eq {limit : Nat} {text other shown : List Char}
    (h : ShownWithin limit text shown) (hother : ShownWithin limit other shown)
    (htext : text.length ≤ limit) (hfit : other.length ≤ limit) : text = other :=
  (h.whole htext).symm.trans (hother.whole hfit)

/-- A label shows the name and the parameter types of the method behind what it keeps of the
declaring type.  It keeps none of that exactly when the declaring type has no parenthesis. -/
theorem label_shows_iff (m : Method) (hdot : '.' ∉ m.name.toList) (hparen : '(' ∉ m.name.toList) :
    (∃ kept, Keeps m.declaring.toList kept ∧ ∀ limit,
      ShownWithin limit (kept ++ ("." ++ m.signature).toList) (label m limit).toList) ∧
    ((∀ limit, ShownWithin limit ("." ++ m.signature).toList (label m limit).toList) ↔
      '(' ∉ m.declaring.toList) := by
  set member := ("." ++ m.signature).toList with hmember
  obtain ⟨kept, hkept, hpart⟩ := exists_keeps m.declaring.toList hdot hparen
    ((", ".intercalate m.parameterTypes).toList ++ [')'])
  have hdisplay : memberPart m.display.toList = kept ++ member := by
    simpa [hmember, Method.display, Method.signature] using hpart
  have hshown (limit : Nat) : ShownWithin limit (kept ++ member) (label m limit).toList := by
    rw [label, String.toList_ofList, hdisplay]
    exact shownWithin_bound _ _
  refine ⟨⟨kept, hkept, hshown⟩, ?_⟩
  rw [← hkept.eq_nil_iff]
  constructor
  · intro hmemberShown
    have heq := (hshown _).eq (hmemberShown (kept ++ member).length) (Nat.le_refl _) (by simp)
    exact List.append_left_eq_self.mp heq
  · rintro rfl
    exact hshown

/-- A label of seven characters for a method of a generic interface. -/
theorem label_shows_generic :
    ('.' ∉ "Get".toList ∧ '(' ∉ "Get".toList) ∧
      (label ⟨"N.IStore<K.T>", "Get", [⟨"n", "int"⟩, ⟨"t", "(bool, long)"⟩]⟩ 7).toList =
        ".Get...".toList := by
  have hname : '.' ∉ "Get".toList ∧ '(' ∉ "Get".toList := by decide
  have hshown := (label_shows_iff ⟨"N.IStore<K.T>", "Get", [⟨"n", "int"⟩, ⟨"t", "(bool, long)"⟩]⟩
    hname.1 hname.2).2.mpr (by decide)
  exact ⟨hname, ((hshown 7).dotted (by decide) (by decide)).trans (by decide)⟩

/-- A tuple among the type arguments of the declaring type is taken for the parameters. -/
theorem label_shows_typeArguments :
    ¬ ∀ m : Method, '.' ∉ m.name.toList → '(' ∉ m.name.toList → ∀ limit,
      ShownWithin limit ("." ++ m.signature).toList (label m limit).toList := by
  intro h
  have hlabel : label ⟨"N.IStore<(int, bool)>", "Get", []⟩ 50 = ".IStore<(int, bool)>.Get()" := by
    decide
  have hshown := (h ⟨"N.IStore<(int, bool)>", "Get", []⟩ (by decide) (by decide) 50).whole
    (by decide)
  rw [hlabel] at hshown
  exact absurd hshown (by decide)

end Offer

end CallFill
