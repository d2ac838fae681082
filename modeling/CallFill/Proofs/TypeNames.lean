import CallFill.Grammar.Source
import CallFill.Proofs.Lossless
import CallFill.Proofs.Settling
import CallFill.Proofs.Shape
import CallFill.Text.Basic

/-!
# Types given by name

A type is read as the operand of a `typeof` expression.  When its name holds no comment, the tree
has the name as its source, without the blanks around it, and its tokens stand as well before the
angle bracket of a list of type arguments as before the parenthesis that they were read in front
of.
-/

namespace CallFill

namespace Text

/-! ## Parts of a text -/

theorem occursIn_iff {part cs : List Char} : occursIn part cs = true ↔ part <:+: cs := by
  induction cs with
  | nil => simp [occursIn]
  | cons c cs ih => simp [occursIn, ih, List.infix_cons_iff]

theorem mentions_iff {text part : String} :
    mentions text part = true ↔ part.toList <:+: text.toList := occursIn_iff

/-! ## The text between blanks -/

theorem trimBlanks_isPrefix (cs : List Char) : trimBlanks cs <+: cs.dropWhile isBlank := by
  rw [← List.reverse_suffix, trimBlanks, List.reverse_reverse]
  exact List.dropWhile_suffix _

theorem trimBlanks_isInfix (cs : List Char) : trimBlanks cs <:+: cs :=
  (trimBlanks_isPrefix cs).isInfix.trans (List.dropWhile_suffix _).isInfix

theorem head?_dropWhile {cs : List Char} {p : Char → Bool} :
    ∀ c ∈ (cs.dropWhile p).head?, p c = false := by
  have h := List.head?_dropWhile_not p cs
  intro c hc
  rw [Option.mem_def.mp hc] at h
  exact h

theorem head?_trimBlanks {cs : List Char} : ∀ c ∈ (trimBlanks cs).head?, isBlank c = false := by
  intro c hc
  obtain ⟨ds, hds⟩ := List.head?_eq_some_iff.mp hc
  obtain ⟨es, hes⟩ := trimBlanks_isPrefix cs
  have hhead : ∀ d ∈ (cs.dropWhile isBlank).head?, isBlank d = false := head?_dropWhile
  refine hhead c ?_
  rw [← hes, hds]
  rfl

theorem getLast?_trimBlanks {cs : List Char} :
    ∀ c ∈ (trimBlanks cs).getLast?, isBlank c = false := by
  rw [trimBlanks, List.getLast?_reverse]
  exact head?_dropWhile

end Text

namespace Lexical

/-! ## Comments without an end -/

/-- The characters after the last end of a line. -/
def lastLine (cs : List Char) : List Char := (cs.reverse.takeWhile (!endsComment ·)).reverse

/-- Two slashes stand on the last line. -/
def OpenNote (cs : List Char) : Prop := ['/', '/'] <:+: lastLine cs

instance (cs : List Char) : Decidable (OpenNote cs) :=
  inferInstanceAs (Decidable (['/', '/'] <:+: lastLine cs))

variable {cs l n u x : List Char}

theorem openNote_iff : OpenNote cs ↔
    ∃ a b, cs = a ++ '/' :: '/' :: b ∧ ∀ c ∈ b, endsComment c = false := by
  constructor
  · rintro ⟨p, b, hline⟩
    refine ⟨(cs.reverse.dropWhile (!endsComment ·)).reverse ++ p, b, ?_, ?_⟩
    · have hsplit := congrArg List.reverse
        (List.takeWhile_append_dropWhile (p := (!endsComment ·)) (l := cs.reverse))
      rw [List.reverse_append, List.reverse_reverse, ← lastLine, ← hline] at hsplit
      simpa using hsplit.symm
    · intro c hc
      have hmem : c ∈ cs.reverse.takeWhile (!endsComment ·) := by
        rw [← List.mem_reverse, ← lastLine, ← hline]
        simp [hc]
      simpa using of_mem_takeWhile hmem
  · rintro ⟨a, b, rfl, hb⟩
    refine ⟨lastLine a, b, ?_⟩
    have hline : ∀ c ∈ b.reverse ++ ['/', '/'], (!endsComment c) = true := by
      intro c hc
      rcases List.mem_append.mp hc with hc | hc
      · simp [hb c (List.mem_reverse.mp hc)]
      · obtain rfl : c = '/' := by simpa using hc
        rfl
    have hreverse : (a ++ '/' :: '/' :: b).reverse = b.reverse ++ ['/', '/'] ++ a.reverse := by
      simp
    rw [lastLine, lastLine, hreverse, List.takeWhile_append_of_pos hline]
    simp

theorem OpenNote.append (h : OpenNote cs) (u : List Char) : OpenNote (u ++ cs) := by
  obtain ⟨a, b, rfl, hb⟩ := openNote_iff.mp h
  exact openNote_iff.mpr ⟨u ++ a, b, (List.append_assoc _ _ _).symm, hb⟩

theorem OpenNote.isInfix (h : OpenNote cs) : ['/', '/'] <:+: cs := by
  obtain ⟨a, b, rfl, -⟩ := openNote_iff.mp h
  exact ⟨a, b, by simp⟩

/-- A parenthesis at the end of trivia stands in a comment. -/
theorem openNote_of_gapFrom {b : Bool} (h : (gapFrom b (cs ++ [')'])).2 = []) :
    (b = true ∧ ∀ c ∈ cs, endsComment c = false) ∨ OpenNote cs := by
  induction cs generalizing b with
  | nil =>
      cases b with
      | true => exact .inl ⟨rfl, by simp⟩
      | false => cases h
  | cons c cs ih =>
      rw [List.cons_append] at h
      cases b with
      | true =>
          have h : (gapFrom (!endsComment c) (cs ++ [')'])).2 = [] := h
          rcases ih h with ⟨hc, hcs⟩ | hnote
          · exact .inl ⟨rfl, List.forall_mem_cons.mpr ⟨by simpa using hc, hcs⟩⟩
          · exact .inr (hnote.append [c])
      | false =>
          rw [gapFrom] at h
          split at h
          · rcases ih h with ⟨hfalse, -⟩ | hnote
            · cases hfalse
            · exact .inr (hnote.append [c])
          · split at h
            next hslash =>
              rcases ih h with ⟨-, hcs⟩ | hnote
              · cases cs with
                | nil => simp at hslash
                | cons d cs =>
                    obtain ⟨rfl, rfl⟩ : c = '/' ∧ d = '/' := by simpa using hslash
                    exact .inr (openNote_iff.mpr ⟨[], cs, rfl, fun e he => hcs e (by simp [he])⟩)
              · exact .inr (hnote.append [c])
            · cases h

/-- Trivia before a token ends with white space: a comment goes to the end of its line. -/
theorem isGap_of_gapFrom {b : Bool} {c : Char} (h : gapFrom b cs = (l, c :: x)) :
    (l = [] ∧ b = false) ∨ ∃ m d, l = m ++ [d] ∧ isGap d = true := by
  have hcons {b : Bool} {d : Char} {gap : List Char} (hd : b = false → isGap d = true)
      (hgap : (gap = [] ∧ b = false) ∨ ∃ m e, gap = m ++ [e] ∧ isGap e = true) :
      ∃ m e, d :: gap = m ++ [e] ∧ isGap e = true := by
    rcases hgap with ⟨rfl, hb⟩ | ⟨m, e, rfl, he⟩
    · exact ⟨[], d, rfl, hd hb⟩
    · exact ⟨d :: m, e, rfl, he⟩
  revert h
  fun_induction gapFrom b cs generalizing l with
  | case1 => simp
  | case2 d cs gap rest hrec ih =>
      rintro ⟨⟩
      exact .inr (hcons (fun hd => isGap_of_endsComment (by simpa using hd)) (ih hrec))
  | case3 d cs hd gap rest hrec ih =>
      rintro ⟨⟩
      exact .inr (hcons (fun _ => hd) (ih hrec))
  | case4 d cs hd hs gap rest hrec ih =>
      rintro ⟨⟩
      exact .inr (hcons (by simp) (ih hrec))
  | case5 d cs hd hs =>
      rintro ⟨⟩
      exact .inl ⟨rfl, rfl⟩

/-- A parenthesis is the one at the end of a text, or a comment takes in the end. -/
theorem Settles.closing {t : Token} (h : Settles t x) (hx : leading x = (x, []))
    (ht : t.text.toList = [')']) (hn : ∀ c ∈ n.getLast?, isGap c = false)
    (heq : u ++ (t.whole.toList ++ x) = n ++ [')']) :
    (u = n ∧ t.whole.toList ++ x = [')']) ∨ ∃ rest, rest ≠ [] ∧ n = u ++ rest ∧ OpenNote n := by
  obtain ⟨hlead, -, htrail⟩ := settles_iff.mp h
  have hwhole : t.whole.toList ++ x = t.leading.toList ++ ')' :: (t.trailing.toList ++ x) := by
    simp [Token.whole, ht]
  rw [ht] at hlead
  rw [hwhole] at heq ⊢
  rcases List.eq_nil_or_concat (t.trailing.toList ++ x) with hend | ⟨tail, d, hend⟩
  · rw [hend] at heq ⊢
    have hsplit : u ++ t.leading.toList = n := by
      rw [← List.append_assoc] at heq
      exact List.append_cancel_right heq
    rcases isGap_of_gapFrom hlead with ⟨hnil, -⟩ | ⟨m, d, hm, hd⟩
    · rw [hnil, List.append_nil] at hsplit
      exact .inl ⟨hsplit, by rw [hnil, List.nil_append]⟩
    · have hlast := hn d (by simp [← hsplit, hm])
      simp [hd] at hlast
  · rw [List.concat_eq_append] at hend
    have hsplit : u ++ (t.leading.toList ++ ')' :: tail) ++ [d] = n ++ [')'] := by
      rw [← heq, hend]
      simp
    obtain ⟨hn, hd⟩ := List.append_inj' hsplit rfl
    obtain rfl := List.singleton_inj.mp hd
    have hgap : (leading (tail ++ [')'])).2 = [] := by
      rw [← hend, ← leading_trailing, htrail, hx]
    rcases openNote_of_gapFrom hgap with ⟨hfalse, -⟩ | hnote
    · cases hfalse
    · refine .inr ⟨t.leading.toList ++ ')' :: tail, by simp, hn.symm, ?_⟩
      have happ : n = (u ++ t.leading.toList ++ [')']) ++ tail := by simp [← hn]
      exact happ ▸ hnote.append _

/-- Only a comment is trivia before a text that begins with no white space. -/
theorem trailing_eq_nil_iff (hn : ∀ c ∈ n.head?, isGap c = false) :
    (trailing (n ++ [')'])).1 = [] ↔ ¬ ['/', '/'] <+: n := by
  constructor
  · rintro h ⟨m, rfl⟩
    have hslash : isIndent '/' = false := rfl
    simp [trailing, comment, hslash] at h
  · intro h
    have hself : trailing (n ++ [')']) = ([], n ++ [')']) := by
      refine trailing_eq_self ⟨fun c hc => ?_, fun ds hds => h ?_⟩
      · cases n with
        | nil =>
            obtain rfl : ')' = c := by simpa using hc
            decide
        | cons d n =>
            obtain rfl : d = c := by simpa using hc
            simp [hn d rfl]
      · have hslashes : ['/', '/'] <+: n ++ [')'] := ⟨ds, hds.symm⟩
        rcases List.prefix_concat_iff.mp hslashes with heq | hprefix
        · have hlast := congrArg List.getLast? heq
          simp at hlast
        · exact hprefix
    rw [hself]

end Lexical

namespace Grammar

open CallFill.Tree CallFill.Lexical

/-! ## The tree of a type name -/

theorem typeOperand?_typeOf (word opening closing : Token) {type : Tree}
    (h : FitsAs NodeKind.isType type) :
    (Place.ofRoot (.node .typeOf
      [.token word, .token opening, type, .token closing])).typeOperand?.map (·.focus) =
        some type := by
  obtain ⟨k, cs, rfl, hk⟩ := h.eq_node
  have hkind : (Kind.node k).isType = true := hk
  simp [Place.typeOperand?, Place.ofRoot, Place.children, Place.childrenFrom, isNode, hkind]

theorem face_of_nodeKind? {t : Tree} {k : NodeKind} (h : t.nodeKind? = some k) :
    t.face = .node k := by
  cases t with
  | token t => cases h
  | node j cs => rw [face_node, Option.some.inj h]

/-- A `typeof` expression has the tree of a type between its parentheses, whatever trivia is put
behind it. -/
theorem exists_typeOperand {e : Tree} (he : FitsAs (· == .typeOf) e) (trivia : String) :
    ∃ (word opening closing : Token) (type : Tree), closing.kind = .closeParen ∧
      FitsAs NodeKind.isType type ∧
      e.tokens = word :: opening :: (type.tokens ++ [closing]) ∧
      (e.appendTrailing trivia).nodeKind? = some .typeOf ∧
      (Place.ofRoot (e.appendTrailing trivia)).typeOperand?.map (·.focus) = some type := by
  obtain ⟨k, cs, rfl, hk⟩ := he.eq_node
  obtain rfl := eq_of_beq hk
  obtain ⟨word, opening, type, closing, rfl, -, -, htype, hc⟩ := children_of_typeOf he.fits
  have happend := appendTrailing_concat trivia .typeOf [.token word, .token opening, type]
    (t := .token closing) (by simp)
  have hlast : (Tree.token closing).appendTrailing trivia =
    .token (closing.appendTrailing trivia) := rfl
  simp only [List.cons_append, List.nil_append, hlast] at happend
  refine ⟨word, opening, closing, type, hc, htype, by simp, ?_, ?_⟩
  · rw [happend, nodeKind?_node]
  · rw [happend, typeOperand?_typeOf word opening _ htype]

/-- The tokens of a type name are those of an operand between parentheses. -/
theorem namedType?_eq_some {name : String} {type : Tree} (h : namedType? name = some type) :
    FitsAs NodeKind.isType type ∧ ∃ (word opening closing : Token) (trivia : List Char),
      closing.kind = .closeParen ∧ leading trivia = (trivia, []) ∧
      Lexical.tokens ("typeof(" ++ Text.trim name ++ ")").toList =
        (word :: opening :: (type.tokens ++ [closing]), trivia) := by
  unfold namedType? at h
  split at h
  · cases h
  · next e he =>
    split at h
    · next hkind =>
      obtain ⟨operand, trivia, ht, hl, hread, rfl⟩ := expression_sound he
      have hface := face_appendTrailing (String.ofList trivia) operand
      rw [face_of_nodeKind? hkind] at hface
      obtain ⟨cs, rfl⟩ := face_eq_node_iff.mp hface.symm
      obtain ⟨word, opening, closing, u, hc, hu, htokens, -, hoperand⟩ :=
        exists_typeOperand (e := .node .typeOf cs) ⟨hread.fits, rfl⟩ (String.ofList trivia)
      obtain rfl : u = type := Option.some.inj (hoperand.symm.trans h)
      refine ⟨hu, word, opening, closing, trivia, hc, hl, ?_⟩
      rw [ht, htokens]
    · cases h

theorem lexeme_typeOf (x : List Char) : Lexeme .keyword "typeof".toList ('(' :: x) := by
  have hletters : "ypeof".toList.all continuesWord = true := by decide +kernel
  have hword : IsWord "typeof".toList := .plain (by decide +kernel) (List.all_eq_true.mp hletters)
  have hstop : ∀ c ∈ ('(' :: x).head?, ¬ continuesWord c = true := by
    rintro c ⟨⟩
    decide +kernel
  exact .word (longest_isWord.mpr ⟨hword, hstop⟩)

theorem settles_typeOf (x : List Char) :
    Settles ⟨.keyword, "", "typeof", ""⟩ ('(' :: x) := by
  refine settles_of_lexeme (lexeme_typeOf x) (trailing_eq_self ⟨?_, ?_⟩)
  · rintro c ⟨⟩
    decide
  · rintro ds ⟨⟩

/-- The operand and the parenthesis after it are cut off from the rest of the text. -/
theorem operand_settled {cs note x trivia : List Char} {type : Tree} {word opening closing : Token}
    (hnote : trailing cs = (note, x))
    (h : Lexical.tokens ("typeof(".toList ++ cs) =
      (word :: opening :: (type.tokens ++ [closing]), trivia)) :
    type.whole.toList ++ (closing.whole.toList ++ trivia) = x ∧
      Settled type.tokens (closing.whole.toList ++ trivia) ∧ Settles closing trivia := by
  obtain ⟨hcs, hsettled, -⟩ := tokens_eq.mp h
  obtain ⟨hword, hopening, hsettled⟩ := hsettled
  obtain ⟨htype, hclosing, -⟩ := settled_append.mp hsettled
  obtain ⟨-, hinner⟩ := hword.unique (settles_typeOf cs) (by simpa [Token.whole] using hcs.symm)
  have happ : note ++ x = cs := by simpa [hnote] using trailing_append cs
  have hopen : Settles ⟨.openParen, "", "(", String.ofList note⟩ x :=
    settles_of_lexeme (.mark rfl) (by rw [String.toList_ofList, happ, hnote])
  obtain ⟨-, hrest⟩ := hopening.unique hopen (by simpa [Token.whole, happ] using hinner)
  refine ⟨?_, by simpa using htype, by simpa using hclosing⟩
  rw [← hrest]
  simp [Tree.whole]

/-- What a name has before the source of its type is a comment.  Behind it a name has nothing, or
its last line ends with a comment. -/
theorem namedType?_parts {name : String} {type : Tree} (h : namedType? name = some type) :
    ∃ note behind, trailing (Text.trimBlanks name.toList ++ [')']) =
        (note, type.whole.toList ++ behind) ∧ Settled type.tokens behind ∧
      (note = [] ↔ ¬ ['/', '/'] <+: Text.trimBlanks name.toList) ∧
      ((note ++ type.whole.toList = Text.trimBlanks name.toList ∧ behind = [')']) ∨
        ∃ rest, rest ≠ [] ∧ Text.trimBlanks name.toList = note ++ type.whole.toList ++ rest ∧
          OpenNote (Text.trimBlanks name.toList)) := by
  obtain ⟨-, word, opening, closing, trivia, hc, hl, ht⟩ := namedType?_eq_some h
  have hsource : ("typeof(" ++ Text.trim name ++ ")").toList =
      "typeof(".toList ++ (Text.trimBlanks name.toList ++ [')']) := by
    simp [Text.trim]
  have hfirst : ∀ c ∈ (Text.trimBlanks name.toList).head?, isGap c = false := by
    intro c hc
    refine Bool.eq_false_iff.mpr fun hgap => ?_
    simpa [isBlank_of_isGap hgap] using Text.head?_trimBlanks c hc
  have hlast : ∀ c ∈ (Text.trimBlanks name.toList).getLast?, isGap c = false := by
    intro c hc
    refine Bool.eq_false_iff.mpr fun hgap => ?_
    simpa [isBlank_of_isGap hgap] using Text.getLast?_trimBlanks c hc
  have hnil := trailing_eq_nil_iff hfirst
  have happ := trailing_append (Text.trimBlanks name.toList ++ [')'])
  generalize Text.trimBlanks name.toList = n at *
  rcases hnote : trailing (n ++ [')']) with ⟨note, x⟩
  rw [hnote] at hnil happ
  rw [hsource] at ht
  obtain ⟨rfl, htype, hclosing⟩ := operand_settled hnote ht
  have htext : closing.text.toList = [')'] :=
    (hc ▸ (settles_iff.mp hclosing).2.1 : Lexeme .closeParen _ _).eq_mark rfl
  refine ⟨note, _, rfl, htype, hnil, ?_⟩
  exact hclosing.closing hl htext hlast (by rw [List.append_assoc, happ])

/-- A type has its name for its source, when no comment stands in it, and its tokens are cut off
in front of a parenthesis. -/
theorem namedType?_whole {name : String} {type : Tree} (h : namedType? name = some type)
    (hname : Text.mentions name "//" = false) :
    type.whole.toList = Text.trimBlanks name.toList ∧ Settled type.tokens [')'] ∧
      trailing (type.whole.toList ++ [')']) = ([], type.whole.toList ++ [')']) := by
  have hnone : ¬ ['/', '/'] <:+: Text.trimBlanks name.toList := by
    intro hi
    have hmention : Text.mentions name "//" = true :=
      Text.mentions_iff.mpr (hi.trans (Text.trimBlanks_isInfix _))
    exact Bool.eq_false_iff.mp hname hmention
  obtain ⟨note, behind, htrail, htype, hnil, ⟨hsplit, rfl⟩ | ⟨rest, -, -, hopen⟩⟩ :=
    namedType?_parts h
  · obtain rfl := hnil.mpr fun hp => hnone hp.isInfix
    rw [List.nil_append] at hsplit
    exact ⟨hsplit, htype, hsplit ▸ htrail⟩
  · exact absurd hopen.isInfix hnone

/-- A type whose name holds no comment stands between any brackets as it stood in its name. -/
theorem namedType?_settled {name : String} {type : Tree} (h : namedType? name = some type)
    (hname : Text.mentions name "//" = false) (x : List Char) : Settled type.tokens ('>' :: x) ∧
      trailing (type.whole.toList ++ '>' :: x) = ([], type.whole.toList ++ '>' :: x) := by
  obtain ⟨-, htype, hstart⟩ := namedType?_whole h hname
  have halike : Alike [')'] ('>' :: x) := .bracket (by decide) (by decide) [] x
  exact ⟨htype.alike halike, splits_trailing.alike (u := []) hstart (halike.append _)⟩

end Grammar

end CallFill
