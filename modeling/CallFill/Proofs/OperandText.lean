import CallFill.Proofs.TypeGrammar

/-!
# How much of a name becomes its type

The name of a type is pasted between the parentheses of a `typeof` expression.  A comment that the
name begins with goes to the opening parenthesis.  A comment on its last line takes in the closing
one, so the expression has ended before, at a parenthesis of the name, and the rest is trivia.  All
else of the name is the source of the type.
-/

namespace CallFill

namespace Lexical

variable {cs w rest : List Char} {ws vs : List String}

theorem Cut.unique (h : Cut cs ws) (h' : Cut cs vs) : ws = vs := by
  obtain ⟨ts, x, ht, -, rfl⟩ := cut_iff_tokens.mp h
  obtain ⟨us, y, hu, -, rfl⟩ := cut_iff_tokens.mp h'
  obtain ⟨rfl, -⟩ := Prod.mk.inj (ht.symm.trans hu)
  rfl

/-! ## Texts without slashes -/

def NoSlash (ws : List String) : Prop := ∀ w ∈ ws, '/' ∉ w.toList

@[simp] theorem noSlash_nil : NoSlash [] := List.forall_mem_nil _

@[simp] theorem noSlash_cons {w : String} : NoSlash (w :: ws) ↔ '/' ∉ w.toList ∧ NoSlash ws :=
  List.forall_mem_cons

@[simp] theorem noSlash_append : NoSlash (ws ++ vs) ↔ NoSlash ws ∧ NoSlash vs :=
  List.forall_mem_append

theorem noSlash_flatten {wss : List (List String)} (h : ∀ ws ∈ wss, NoSlash ws) :
    NoSlash wss.flatten := by
  intro w hw
  obtain ⟨ws, hws, hw⟩ := List.mem_flatten.mp hw
  exact h ws hws w hw

/-! ## A comment on the last line -/

theorem OpenNote.of_append (h : OpenNote (w ++ rest)) (hw : '/' ∉ w) : OpenNote rest := by
  obtain ⟨a, b, hab, hb⟩ := openNote_iff.mp h
  rcases List.append_eq_append_iff.mp hab with ⟨m, rfl, rfl⟩ | ⟨m, rfl, hm⟩
  · exact openNote_iff.mpr ⟨m, b, rfl, hb⟩
  · cases m with
    | nil => exact openNote_iff.mpr ⟨[], b, hm.symm, hb⟩
    | cons c m =>
        obtain ⟨rfl, -⟩ := List.cons.inj hm
        simp at hw

theorem lastLine_append {c : Char} (hc : endsComment c = true) (u v : List Char) :
    lastLine (u ++ c :: v) = lastLine (c :: v) := by
  simp [lastLine, List.takeWhile_append, hc]

/-- A parenthesis behind such a comment is no token. -/
theorem Cut.concat_of_openNote (h : Cut cs ws) (hws : NoSlash ws)
    (hnote : OpenNote cs) : Cut (cs ++ [')']) ws := by
  induction h with
  | done => exact absurd hnote (by decide)
  | @gap c cs ws hc h ih =>
      have hslash : '/' ∉ [c] := by
        rintro hmem
        rw [← List.mem_singleton.mp hmem] at hc
        cases hc
      exact .gap hc (ih hws (hnote.of_append (w := [c]) hslash))
  | @comment cs ws h ih =>
      suffices hrest : Cut ((cs ++ [')']).dropWhile (!endsComment ·)) ws from .comment hrest
      rw [List.dropWhile_append]
      cases hrest : cs.dropWhile (!endsComment ·) with
      | nil =>
          rw [hrest] at h
          exact h
      | cons c r =>
          have hc : endsComment c = true := by
            have hstop := List.head?_dropWhile_not (!endsComment ·) cs
            rw [hrest] at hstop
            simpa using hstop
          have hcs : '/' :: '/' :: cs =
              '/' :: '/' :: cs.takeWhile (!endsComment ·) ++ c :: r := by
            rw [← hrest, List.cons_append, List.cons_append, List.takeWhile_append_dropWhile]
          rw [hrest] at ih
          refine ih hws ?_
          rw [OpenNote, ← lastLine_append hc, ← hcs]
          exact hnote
  | @token k w rest ws hw h ih =>
      obtain ⟨hword, hws⟩ := noSlash_cons.mp hws
      rw [List.append_assoc]
      exact .token (hw.append_cons divides_closeParen [])
        (ih hws (hnote.of_append (by simpa using hword)))

end Lexical

namespace Grammar

open CallFill.Tree CallFill.Lexical

/-! ## No slash in a type -/

/-- The phrases that a type is made of. -/
def Phrase.inType : Phrase → Bool
  | .type | .mark | .builtin | .name | .simpleName | .typeArguments | .tuple | .element => true
  | _ => false

theorem IsIdentifier.not_mem {i : String} (h : IsIdentifier i) : '/' ∉ i.toList :=
  h.1.not_mem (by decide) (by decide +kernel) (by decide +kernel)

theorem noSlash_more (sep : String) (hsep : '/' ∉ sep.toList) {wss : List (List String)}
    (h : ∀ ws ∈ wss, NoSlash ws) : NoSlash (more sep wss) := by
  intro w hw
  obtain ⟨ws, hws, hw⟩ := List.mem_flatMap.mp hw
  rcases List.mem_cons.mp hw with rfl | hw
  · exact hsep
  · exact h ws hws w hw

theorem Derives.noSlash {φ : Phrase} {ws : List String} (h : Derives φ ws)
    (hφ : φ.inType = true) : NoSlash ws := by
  induction h with
  | builtinType _ _ ih ihs | tupleType _ _ ih ihs | nameType _ _ ih ihs =>
      exact noSlash_append.mpr ⟨ih rfl, noSlash_flatten fun m hm => ihs m hm rfl⟩
  | nullable | pointer => simp
  | rank n =>
      have hcommas : NoSlash (List.replicate n ",") := by
        intro w hw
        rw [List.eq_of_mem_replicate hw]
        simp
      simp [hcommas]
  | @builtin w hw =>
      have hbuiltin : ∀ w ∈ builtinTypes, '/' ∉ w.toList := by decide +kernel
      simpa using hbuiltin w hw
  | name _ _ ih ihs =>
      have hmore := noSlash_more "." (by simp) fun m hm => ihs m hm rfl
      exact noSlash_append.mpr ⟨ih rfl, hmore⟩
  | aliasedName hi _ _ ih ihs =>
      have hmore := noSlash_more "." (by simp) fun m hm => ihs m hm rfl
      simpa [hi.not_mem] using ⟨ih rfl, hmore⟩
  | identifier hi => simpa using hi.not_mem
  | generic hi _ ih => simpa [hi.not_mem] using ih rfl
  | typeArguments _ _ ih ihs | tuple _ _ _ ih ihs =>
      have hmore := noSlash_more "," (by simp) fun m hm => ihs m hm rfl
      simpa using ⟨ih rfl, hmore⟩
  | element _ ih => exact ih rfl
  | namedElement _ hi ih => simpa [hi.not_mem] using ih rfl
  | _ => cases hφ

/-! ## What is left of a name -/

/-- What stands before the closing parenthesis with no comment around is cut the same with it and
without. -/
theorem not_openNote_of_settled {n note : List Char} {type : Tree}
    (htype : FitsAs NodeKind.isType type) (hsettled : Settled type.tokens [')'])
    (hn : trailing (n ++ [')']) = (note, type.whole.toList ++ [')'])) : ¬ OpenNote n := by
  intro hopen
  have happ : note ++ type.whole.toList = n := by
    have happ := trailing_append (n ++ [')'])
    rw [hn, ← List.append_assoc] at happ
    exact List.append_cancel_right happ
  have halone : trailing n = (note, type.whole.toList) := by
    have halike : Alike (type.whole.toList ++ [')']) type.whole.toList := by
      simpa using (Alike.stop (by decide) []).append type.whole.toList
    rw [← happ] at hn ⊢
    rw [List.append_assoc] at hn
    exact splits_trailing.alike hn halike
  have htokens := tokens_of_settled hsettled
  have hcut : Cut n (type.tokens.map Token.text) := by
    rw [← cut_trailing, halone]
    exact cut_iff_tokens.mpr ⟨_, [], htokens, rfl, rfl⟩
  have hclosed : Cut (n ++ [')']) (type.tokens.map Token.text ++ [")"]) := by
    rw [← cut_trailing, hn]
    have hparen : Settles (.bare .closeParen ")") [] := settles_mark rfl rfl
    have hall : Settled (type.tokens ++ [.bare .closeParen ")"]) [] :=
      settled_append.mpr ⟨by simpa using hsettled, by simpa using hparen⟩
    refine cut_iff_tokens.mpr ⟨type.tokens ++ [.bare .closeParen ")"], [], tokens_eq.mpr ?_, rfl,
      by simp [Token.bare]⟩
    exact ⟨by simp [Tree.whole], hall, rfl⟩
  have hslash : NoSlash (type.tokens.map Token.text) :=
    ((isDerivation_of_fits htype.fits (spelled_of_tokens htokens)).type htype.isOf).noSlash rfl
  have heq := hclosed.unique (hcut.concat_of_openNote hslash hopen)
  simpa using congrArg List.length heq

theorem namedType?_split {name : String} {type : Tree} (h : namedType? name = some type) :
    ∃ note rest, Text.trim name = note ++ type.whole ++ rest ∧
      (note = "" ↔ ¬ ['/', '/'] <+: (Text.trim name).toList) ∧
      (rest = "" ↔ ¬ OpenNote (Text.trim name).toList) := by
  obtain ⟨htype, -⟩ := namedType?_eq_some h
  obtain ⟨note, behind, htrail, hsettled, hnote, hrest⟩ := namedType?_parts h
  have hnil (cs : List Char) : String.ofList cs = "" ↔ cs = [] := by
    rw [← String.toList_inj, String.toList_ofList, String.toList_empty]
  have htrim : (Text.trim name).toList = Text.trimBlanks name.toList := String.toList_ofList
  rw [← htrim] at htrail hnote hrest
  rcases hrest with ⟨hsplit, rfl⟩ | ⟨rest, hne, hsplit, hopen⟩
  · refine ⟨String.ofList note, "", ?_, (hnil note).trans hnote, ?_⟩
    · rw [← String.toList_inj, ← hsplit]
      simp
    · exact iff_of_true rfl (not_openNote_of_settled htype hsettled htrail)
  · refine ⟨String.ofList note, String.ofList rest, ?_, (hnil note).trans hnote, ?_⟩
    · rw [← String.toList_inj, hsplit]
      simp
    · exact iff_of_false (mt (hnil rest).mp hne) (not_not_intro hopen)

/-- The source of a type is its name without a comment that the name begins with and without what
follows a parenthesis of the name, when a comment ends its last line.  So it is the name itself
just when there are no such comments. -/
theorem operand_verbatim_iff {name : String} {type : Tree} (h : namedType? name = some type) :
    (∃ note rest, Text.trim name = note ++ type.whole ++ rest ∧
      (note = "" ↔ ¬ ['/', '/'] <+: (Text.trim name).toList) ∧
      (rest = "" ↔ ¬ OpenNote (Text.trim name).toList)) ∧
    (type.whole = Text.trim name ↔
      ¬ ['/', '/'] <+: (Text.trim name).toList ∧ ¬ OpenNote (Text.trim name).toList) := by
  obtain ⟨note, rest, hsplit, hnote, hrest⟩ := namedType?_split h
  refine ⟨⟨note, rest, hsplit, hnote, hrest⟩, ?_⟩
  rw [← hnote, ← hrest, hsplit]
  constructor
  · intro heq
    have hsize := congrArg String.utf8ByteSize heq
    simp only [String.utf8ByteSize_append] at hsize
    rw [← String.utf8ByteSize_eq_zero_iff, ← String.utf8ByteSize_eq_zero_iff]
    omega
  · rintro ⟨rfl, rfl⟩
    simp

theorem operand_verbatim_iff_notedName : ∃ type, namedType? "int // a\n?" = some type ∧
    type.whole = "int // a\n?" := by
  have hsome : (namedType? "int // a\n?").isSome = true := by decide +kernel
  have htrim : Text.trim "int // a\n?" = "int // a\n?" := by decide +kernel
  have hplain : ¬ ['/', '/'] <+: (Text.trim "int // a\n?").toList ∧
      ¬ OpenNote (Text.trim "int // a\n?").toList := by decide +kernel
  obtain ⟨type, htype⟩ := Option.isSome_iff_exists.mp hsome
  exact ⟨type, htype, ((operand_verbatim_iff htype).2.mpr hplain).trans htrim⟩

/-- A parenthesis and a comment in a name leave the operand shorter than the name. -/
theorem operand_drops_rest : ∃ type, namedType? "int) //" = some type ∧ type.whole = "int" ∧
    type.whole ≠ Text.trim "int) //" := by
  have hwhole : (namedType? "int) //").map Tree.whole = some "int" := by decide +kernel
  obtain ⟨type, htype, hwhole⟩ := Option.map_eq_some_iff.mp hwhole
  refine ⟨type, htype, hwhole, ?_⟩
  rw [hwhole]
  decide +kernel

end Grammar

end CallFill
