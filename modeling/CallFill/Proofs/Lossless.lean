import CallFill.Proofs.Soundness
import CallFill.Proofs.Trailing

/-!
# Reading loses nothing

The readers take tokens off the front, the tokens are cut off the front of the text, and the
trivia left at the end goes to the end of the tree.  So the source of a tree is the text that it
was read from.
-/

namespace CallFill.Grammar

open CallFill.Tree CallFill.Lexical

/-! ## When a text is read -/

theorem exists_ok_of_isOk {ε α : Type} {r : Except ε α} (h : r.isOk = true) :
    ∃ a, r = .ok a := by
  cases r with
  | error e => cases h
  | ok a => exact ⟨a, rfl⟩

theorem remainder_eq_false {ts : List Token} {rest : List Char} {trivia : String} :
    remainder ts rest = (trivia, false) ↔
      ts = [] ∧ leading rest = (rest, []) ∧ trivia = String.ofList rest := by
  cases ts with
  | cons t ts => simp [remainder]
  | nil =>
      have happ := leading_append rest
      constructor
      · intro h
        obtain ⟨rfl, hl⟩ : String.ofList (leading rest).1 = trivia ∧ (leading rest).2 = [] := by
          simpa [remainder] using h
        rw [hl, List.append_nil] at happ
        exact ⟨rfl, Prod.ext happ hl, by rw [happ]⟩
      · rintro ⟨-, hl, rfl⟩
        simp [remainder, hl]

/-- A text is a document when its tokens are a run of statements and only trivia follows them. -/
theorem document_eq_ok {source : String} {root : Tree} :
    document source = .ok root ↔ ∃ ts trivia statements,
      Lexical.tokens source.toList = (ts, trivia) ∧ leading trivia = (trivia, []) ∧
      many (statement? (ts.length + 1)) (ts.length + 1) ts = (statements, []) ∧
      root = .node .compilationUnit (statements ++ [endOfFile (String.ofList trivia)]) := by
  rcases ht : Lexical.tokens source.toList with ⟨ts, rest⟩
  rcases hm : many (statement? (ts.length + 1)) (ts.length + 1) ts with ⟨statements, left⟩
  rcases hr : remainder left rest with ⟨trivia, more⟩
  simp only [document, ht, hm, hr]
  constructor
  · intro h
    cases more with
    | true => cases h
    | false =>
        obtain ⟨rfl, hl, rfl⟩ := remainder_eq_false.mp hr
        obtain rfl : _ = root := by simpa using h
        exact ⟨ts, rest, statements, rfl, hl, hm, rfl⟩
  · rintro ⟨ts', rest', statements', h, hl, hm', rfl⟩
    obtain ⟨rfl, rfl⟩ : ts = ts' ∧ rest = rest' := by simpa using h
    obtain ⟨rfl, rfl⟩ : statements = statements' ∧ left = [] := by simpa [hm] using hm'
    rw [remainder_eq_false.mpr ⟨rfl, hl, rfl⟩] at hr
    obtain ⟨rfl, rfl⟩ : String.ofList rest = trivia ∧ false = more := by simpa using hr
    simp

/-- A text is an expression when its tokens are one and only trivia follows them. -/
theorem expression_eq_ok {source : String} {root : Tree} :
    expression source = .ok root ↔ source.toList.all Text.isBlank = false ∧ ∃ ts trivia e,
      Lexical.tokens source.toList = (ts, trivia) ∧ leading trivia = (trivia, []) ∧
      expr? (ts.length + 1) ts = some (e, []) ∧
      root = e.appendTrailing (String.ofList trivia) := by
  rcases ht : Lexical.tokens source.toList with ⟨ts, rest⟩
  cases hb : source.toList.all Text.isBlank with
  | true => simp [expression, hb]
  | false =>
      simp only [expression, hb, ht, Bool.false_eq_true, if_false, true_and]
      constructor
      · intro h
        split at h
        · cases h
        · next e left he =>
          rcases hr : remainder left rest with ⟨trivia, more⟩
          simp only [hr] at h
          cases more with
          | true => cases h
          | false =>
              obtain ⟨rfl, hl, rfl⟩ := remainder_eq_false.mp hr
              obtain rfl : _ = root := by simpa using h
              exact ⟨ts, rest, e, rfl, hl, he, rfl⟩
      · rintro ⟨ts', rest', e, h, hl, he, rfl⟩
        obtain ⟨rfl, rfl⟩ : ts = ts' ∧ rest = rest' := by simpa using h
        simp [he, remainder_eq_false.mpr ⟨rfl, hl, rfl⟩]

/-! ## The trees that are read -/

theorem toList_whole_of_tokens {source : String} {ts : List Token} {trivia : List Char}
    (h : Lexical.tokens source.toList = (ts, trivia)) :
    Token.wholeAll ts ++ String.ofList trivia = source := by
  have happ := tokens_append source.toList
  rw [h] at happ
  simpa [← String.toList_inj] using happ

theorem endOfFile_face (trivia : String) : (endOfFile trivia).face = .token .endOfFile := rfl

/-- A document fits, and its statements hold all tokens of the text. -/
theorem fits_document {statements : List Tree} {trivia : String}
    (h : ∀ s ∈ statements, FitsAs NodeKind.isStatement s) :
    (Tree.node .compilationUnit (statements ++ [endOfFile trivia])).Fits := by
  obtain ⟨ks, hks, hmap⟩ := exists_kinds fun s hs => (h s hs).isOf
  refine .node (.compilationUnit hks) (by simp [hmap, endOfFile_face]) ?_
  intro c hc
  rcases List.mem_append.mp hc with hc | hc
  · exact (h c hc).fits
  · obtain rfl := List.mem_singleton.mp hc
    exact .token _

/-- A document is read as fitting statements that hold the tokens of the text, with the trivia
behind them. -/
theorem document_sound {source : String} {root : Tree} (h : document source = .ok root) :
    ∃ statements trivia, Lexical.tokens source.toList = (tokensAll statements, trivia) ∧
      leading trivia = (trivia, []) ∧ (∀ s ∈ statements, FitsAs NodeKind.isStatement s) ∧
      root = .node .compilationUnit (statements ++ [endOfFile (String.ofList trivia)]) := by
  obtain ⟨ts, trivia, statements, ht, hl, hm, rfl⟩ := document_eq_ok.mp h
  obtain ⟨htokens, hall⟩ := many_sound (statement?_sound _) hm
  exact ⟨statements, trivia, by simpa [htokens] using ht, hl, hall, rfl⟩

/-- An expression is read as a fitting tree that holds the tokens of the text, and the trivia
behind them goes to its last token. -/
theorem expression_sound {source : String} {root : Tree} (h : expression source = .ok root) :
    ∃ e trivia, Lexical.tokens source.toList = (e.tokens, trivia) ∧
      leading trivia = (trivia, []) ∧ FitsAs NodeKind.isExpr e ∧
      root = e.appendTrailing (String.ofList trivia) := by
  obtain ⟨-, ts, trivia, e, ht, hl, he, rfl⟩ := expression_eq_ok.mp h
  have he := expr?_sound _ he
  exact ⟨e, trivia, by simpa [he.tokens] using ht, hl, ⟨he.fits, he.isOf⟩, rfl⟩

theorem document_fits {source : String} {root : Tree} (h : document source = .ok root) :
    root.Fits := by
  obtain ⟨statements, trivia, -, -, hs, rfl⟩ := document_sound h
  exact fits_document hs

theorem document_whole {source : String} {root : Tree} (h : document source = .ok root) :
    root.whole = source := by
  obtain ⟨statements, trivia, ht, -, -, rfl⟩ := document_sound h
  rw [← toList_whole_of_tokens ht, whole_node]
  simp [endOfFile, Token.whole]

theorem expression_fits {source : String} {root : Tree} (h : expression source = .ok root) :
    root.Fits := by
  obtain ⟨e, trivia, -, -, he, rfl⟩ := expression_sound h
  exact he.fits.appendTrailing _

theorem expression_whole {source : String} {root : Tree} (h : expression source = .ok root) :
    root.whole = source := by
  obtain ⟨e, trivia, ht, -, he, rfl⟩ := expression_sound h
  rw [whole_appendTrailing _ he.fits.tokens_ne_nil, ← toList_whole_of_tokens ht]
  rfl

/-- The source of a tree is the text that it was read from. -/
theorem reading_lossless (source : String) :
    (∀ root, document source = .ok root → root.whole = source) ∧
      ∀ root, expression source = .ok root → root.whole = source :=
  ⟨fun _ => document_whole, fun _ => expression_whole⟩

/-- White space and a comment in odd places. -/
theorem reading_lossless_noted :
    (∃ root, document "\r f . g<a ,b>(\"x\") ; // end" = .ok root ∧
        root.whole = "\r f . g<a ,b>(\"x\") ; // end") ∧
      ∃ root, expression "typeof(int ) // end" = .ok root ∧
        root.whole = "typeof(int ) // end" := by
  have hdocument : (document "\r f . g<a ,b>(\"x\") ; // end").isOk = true := by decide +kernel
  have hexpression : (expression "typeof(int ) // end").isOk = true := by decide +kernel
  constructor
  · cases h : document "\r f . g<a ,b>(\"x\") ; // end" with
    | error e => simp [h, Except.isOk, Except.toBool] at hdocument
    | ok root => exact ⟨root, rfl, (reading_lossless _).1 root h⟩
  · cases h : expression "typeof(int ) // end" with
    | error e => simp [h, Except.isOk, Except.toBool] at hexpression
    | ok root => exact ⟨root, rfl, (reading_lossless _).2 root h⟩

end CallFill.Grammar
