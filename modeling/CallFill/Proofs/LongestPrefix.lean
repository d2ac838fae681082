import CallFill.Proofs.Dividers
import CallFill.Proofs.Respelling
import CallFill.Proofs.Settling

/-!
# The longest document that a text begins with

A text that is no document is read up to some place.  What is in front of that place is cut into
the tokens of the statements that were read, so it is a document.  A document in front of any later
place would end with a semicolon and trivia, and up to a semicolon a text is cut the same way
whatever follows: its statements would have been read as well.
-/

namespace CallFill

namespace Lexical

/-! ## What a text opens with -/

/-- The text opens with tokens of these texts, and `rest` stands behind them and their trivia. -/
inductive Opens : List Char → List String → List Char → Prop
  | done (cs : List Char) : Opens cs [] (leading cs).2
  | token {k : TokenKind} {cs w r rest : List Char} {ws : List String}
      (hl : (leading cs).2 = w ++ r) (hw : Lexeme k w r) (h : Opens r ws rest) :
      Opens cs (String.ofList w :: ws) rest

section

variable {cs ds p rest w x y : List Char} {ws vs : List String}

theorem Opens.congr (h : Opens cs ws rest) (hcs : (leading cs).2 = (leading ds).2) :
    Opens ds ws rest := by
  cases h with
  | done =>
      rw [hcs]
      exact .done ds
  | token hl hw h => exact .token (hcs ▸ hl) hw h

theorem leading_suffix (cs : List Char) : (leading cs).2 <:+ cs := ⟨_, leading_append cs⟩

theorem Opens.suffix (h : Opens cs ws rest) : rest <:+ (leading cs).2 := by
  induction h with
  | done => exact List.suffix_refl _
  | token hl _ _ ih =>
      rw [hl]
      exact (ih.trans (leading_suffix _)).trans (List.suffix_append _ _)

/-- The trivia in front of a token is trivia to its end. -/
theorem gapFrom_fst (b : Bool) (cs : List Char) : (gapFrom b (gapFrom b cs).1).2 = [] := by
  fun_induction gapFrom b cs with
  | case1 b => cases b <;> rfl
  | case2 c cs gap rest hrec ih => simpa [gapFrom, hrec] using ih
  | case3 c cs hc gap rest hrec ih => simpa [gapFrom, hc, hrec] using ih
  | case4 c cs hc hs gap rest hrec ih =>
      obtain ⟨rfl, hhead⟩ : c = '/' ∧ cs.head? = some '/' := by simpa using hs
      obtain ⟨cs, rfl⟩ := List.head?_eq_some_iff.mp hhead
      rw [hrec] at ih
      obtain ⟨gap, rfl⟩ : ∃ more, gap = '/' :: more := by
        rw [gapFrom] at hrec
        exact ⟨_, (Prod.mk.inj hrec).1.symm⟩
      simpa [gapFrom, hc] using ih
  | case5 c cs hc hs => rfl

/-- What is in front of `rest` is cut into the texts. -/
theorem Opens.exists_cut (h : Opens cs ws rest) : ∃ p, cs = p ++ rest ∧ Cut p ws := by
  induction h with
  | done cs =>
      refine ⟨(leading cs).1, (leading_append cs).symm, cut_leading.mp ?_⟩
      rw [leading, leading, gapFrom_fst]
      exact .done
  | @token k cs w r rest ws hl hw h ih =>
      obtain ⟨p, rfl, hcut⟩ := ih
      have happ : (leading cs).1 ++ (w ++ (p ++ rest)) = cs := by rw [← hl, leading_append]
      have hlead : leading ((leading cs).1 ++ (w ++ (p ++ rest))) =
          ((leading cs).1, w ++ (p ++ rest)) := by
        rw [happ]
        exact Prod.ext rfl hl
      refine ⟨(leading cs).1 ++ (w ++ p), by simpa using happ.symm, cut_leading.mp ?_⟩
      rw [leading_congr hw hlead]
      exact .token hw.of_append hcut

/-! ## Up to a semicolon -/

theorem Cut.mem_infix (h : Cut cs ws) {s : String} (hs : s ∈ ws) : s.toList <:+: cs := by
  induction h with
  | done => cases hs
  | gap _ _ ih => exact List.infix_cons (ih hs)
  | comment _ ih =>
      exact List.infix_cons (List.infix_cons ((ih hs).trans (List.dropWhile_suffix _).isInfix))
  | token _ _ ih =>
      rcases List.mem_cons.mp hs with rfl | hs
      · rw [String.toList_ofList]
        exact (List.prefix_append _ _).isInfix
      · exact (ih hs).trans (List.suffix_append _ _).isInfix

/-- The last of the texts, if there is one, is a semicolon. -/
def Closed (ws : List String) : Prop := ∀ s ∈ ws.getLast?, s = ";"

theorem lexeme_semicolon (x : List Char) : Lexeme .semicolon [';'] x := .mark rfl

/-- A token up to a semicolon is the same whatever follows the semicolon. -/
theorem Lexeme.exists_of_closed {k : TokenKind} (hw : Lexeme k w x) (h : Cut x ws)
    (hclosed : Closed (String.ofList w :: ws)) (y : List Char) : ∃ j, Lexeme j w (x ++ y) := by
  -- a later token holds a semicolon, which divides; the last one is a semicolon itself
  cases ws with
  | nil =>
      obtain rfl : w = [';'] := by
        have hs : String.ofList w = ";" := hclosed _ rfl
        simpa using congrArg String.toList hs
      exact ⟨.semicolon, lexeme_semicolon _⟩
  | cons s ws =>
      have hlast := List.getLast?_eq_some_getLast (List.cons_ne_nil s ws)
      have hsemi := hclosed _ (List.getLast?_cons_cons.trans hlast)
      have hmem := List.mem_of_getLast? hlast
      rw [hsemi] at hmem
      obtain ⟨u, v, hx⟩ := h.mem_infix hmem
      obtain rfl : x = u ++ ';' :: v := by simpa using hx.symm
      refine ⟨k, ?_⟩
      rw [List.append_assoc]
      exact hw.of_append.append_cons divides_semicolon (v ++ y)

/-- A text that is cut into texts up to a semicolon opens a longer one with them. -/
theorem Cut.opens (h : Cut p ws) (hclosed : Closed ws) (y : List Char) :
    ∃ rest, Opens (p ++ y) ws rest ∧ rest <:+ y := by
  induction h with
  | done => exact ⟨_, .done y, leading_suffix y⟩
  | @gap c cs ws hc _ ih =>
      obtain ⟨rest, hopens, hrest⟩ := ih hclosed
      exact ⟨rest, hopens.congr (leading_gap hc _).symm, hrest⟩
  | @comment cs ws h ih =>
      obtain ⟨rest, hopens, hrest⟩ := ih hclosed
      have hskip : (leading ('/' :: '/' :: cs ++ y)).2 =
          (leading ((cs ++ y).dropWhile (!endsComment ·))).2 := leading_comment _
      rw [List.dropWhile_append] at hskip
      cases hdrop : cs.dropWhile (!endsComment ·) with
      | nil =>
          -- the comment has no end of its own, so nothing but trivia was there
          rw [hdrop] at h hskip
          obtain rfl : ws = [] := by simpa [cut] using ((cut_iff (Nat.le_refl 0)).mp h).2
          refine ⟨_, (Opens.done _).congr hskip.symm, ?_⟩
          exact (leading_suffix _).trans (List.dropWhile_suffix _)
      | cons c r =>
          rw [hdrop] at hopens hskip
          exact ⟨rest, hopens.congr hskip.symm, hrest⟩
  | @token k w x ws hw h ih =>
      obtain ⟨j, hj⟩ := hw.exists_of_closed h hclosed y
      have hrest : Closed ws := by
        intro s hs
        cases ws with
        | nil => cases hs
        | cons v ws => exact hclosed s (by rwa [List.getLast?_cons_cons])
      obtain ⟨rest, hopens, hsuffix⟩ := ih hrest
      refine ⟨rest, .token ?_ hj hopens, hsuffix⟩
      rw [List.append_assoc, leading_lexeme hj]

/-! ## The tokens that a text opens with -/

theorem opens_wholeAll {ts : List Token} (h : Settled ts x) :
    Opens ((Token.wholeAll ts).toList ++ x) (ts.map Token.text) (leading x).2 := by
  induction ts with
  | nil => exact .done x
  | cons t ts ih =>
      obtain ⟨ht, hts⟩ := settled_cons.mp h
      obtain ⟨hl, hw, htrail⟩ := settles_iff.mp ht
      have hskip := leading_trailing (t.trailing.toList ++ ((Token.wholeAll ts).toList ++ x))
      rw [htrail] at hskip
      have hopens := Opens.token (congrArg Prod.snd hl) hw ((ih hts).congr hskip)
      simpa [Token.whole] using hopens

theorem Opens.exists_tokens (h : Opens cs ws rest) : ∃ ts us r, tokens cs = (ts ++ us, r) ∧
    ts.map Token.text = ws ∧ rest = (leading ((Token.wholeAll us).toList ++ r)).2 := by
  suffices hcut : ∀ fuel, cs.length ≤ fuel → ∃ ts us r, cut fuel cs = (ts ++ us, r) ∧
      ts.map Token.text = ws ∧ rest = (leading ((Token.wholeAll us).toList ++ r)).2 from
    hcut _ (Nat.le_refl _)
  intro fuel hfuel
  induction ws generalizing cs fuel with
  | nil =>
      cases h
      exact ⟨[], _, _, rfl, rfl, by rw [cut_append]⟩
  | cons s ws ih =>
      cases h with
      | @token k _ w r _ _ hl hw h =>
          obtain ⟨t, ht, htext⟩ : ∃ t, token? cs = some (t, (trailing r).2) ∧
              t.text = String.ofList w :=
            ⟨_, token?_eq_some.mpr ⟨k, w, r, lexeme?_eq_some.mpr ⟨hl, hw⟩, rfl, rfl⟩, rfl⟩
          have hlt := length_lt_of_token? ht
          obtain ⟨fuel, rfl⟩ : ∃ n, fuel = n + 1 := ⟨fuel - 1, by omega⟩
          obtain ⟨ts, us, r', hcut, rfl, hrest⟩ :=
            ih (h.congr (leading_trailing r).symm) fuel (by omega)
          exact ⟨t :: ts, us, r', by simp [cut, ht, hcut], by simp [htext], hrest⟩

end

end Lexical

namespace Grammar

open CallFill.Tree CallFill.Lexical

/-! ## Where the statements stop -/

/-- A statement ends with a semicolon. -/
theorem tokens_statement {s : Tree} (h : FitsAs NodeKind.isStatement s) :
    ∃ init semi, s.tokens = init ++ [semi] ∧ semi.kind = .semicolon := by
  obtain ⟨k, cs, rfl, hk⟩ := h.eq_node
  cases k <;> try cases hk
  case usingDirective =>
    obtain ⟨word, n, semi, rfl, -, -, hs⟩ := children_of_usingDirective h.fits
    exact ⟨word :: n.tokens, semi, by simp, hs⟩
  case localDeclaration =>
    obtain ⟨u, i, equals, e, semi, rfl, -, -, -, -, hs⟩ := children_of_localDeclaration h.fits
    exact ⟨u.tokens ++ i :: equals :: e.tokens, semi, by simp, hs⟩
  case expressionStatement =>
    obtain ⟨e, semi, rfl, -, hs⟩ := children_of_expressionStatement h.fits
    exact ⟨e.tokens, semi, by simp, hs⟩

theorem closed_statements {ss : List Tree} (h : ∀ s ∈ ss, FitsAs NodeKind.isStatement s)
    (hs : ∀ t ∈ tokensAll ss, t.Spelled) : Closed ((tokensAll ss).map Token.text) := by
  rcases ss.eq_nil_or_concat with rfl | ⟨init, s, rfl⟩
  · simp [Closed]
  · obtain ⟨ts, semi, hts, hk⟩ := tokens_statement (h s (by simp))
    have htext : semi.text = ";" := text_of_mark (hs semi (by simp [hts])) hk rfl
    simp [Closed, hts, htext]

/-- What is left after the tokens that were read is their trivia, and the text goes on where the
trivia ends. -/
theorem remainder_eq {ts : List Token} {x : List Char} (h : Settled ts x) :
    remainder ts x = (String.ofList (leading ((Token.wholeAll ts).toList ++ x)).1,
      !(leading ((Token.wholeAll ts).toList ++ x)).2.isEmpty) := by
  cases ts with
  | nil => rfl
  | cons t ts =>
      have ht := (settled_cons.mp h).1
      rw [Token.wholeAll_cons, String.toList_append, List.append_assoc, ht.leading_eq]
      simp [remainder, ht.text_ne_empty]

/-- Fitting statements that a text opens with are the first ones that are read from it, so the text
is left no later than they end. -/
theorem leading_suffix_of_opens {fuel : Nat} {cs x rest : List Char} {ts left : List Token}
    {ss us : List Tree} (ht : tokens cs = (ts, x)) (hfuel : ts.length ≤ fuel)
    (hm : many (statement? fuel) fuel ts = (ss, left))
    (hus : ∀ u ∈ us, FitsAs NodeKind.isStatement u) (hs : ∀ t ∈ tokensAll us, t.Spelled)
    (h : Opens cs ((tokensAll us).map Token.text) rest) :
    (leading ((Token.wholeAll left).toList ++ x)).2 <:+ rest := by
  -- the tokens of the text begin with those of `us` up to trivia, so the reader finds them first
  obtain ⟨vs, ws, y, hvs, htexts, rfl⟩ := h.exists_tokens
  obtain ⟨rfl, rfl⟩ : ts = vs ++ ws ∧ x = y := by simpa using ht.symm.trans hvs
  have hstrip : vs.map Token.strip = (tokensAll us).map Token.strip :=
    Token.map_strip_eq (fun t hmem => spelled_of_tokens ht t (by simp [hmem])) hs htexts
  obtain ⟨us', rfl, hus'⟩ := exists_of_tokensAll us hstrip
  have hlen : (tokensAll us').length ≤ fuel := by
    rw [List.length_append] at hfuel
    omega
  obtain ⟨n, hmany⟩ := statements_append (forall_of_strip hus hus') hlen ws
  rcases hothers : many (statement? fuel) n ws with ⟨others, left'⟩
  obtain ⟨rfl, rfl⟩ : us' ++ others = ss ∧ left' = left := by
    simpa [hothers] using hmany.symm.trans hm
  obtain ⟨rfl, -⟩ := many_sound (statement?_sound _) hothers
  obtain ⟨-, hsettled, -⟩ := tokens_eq.mp ht
  rw [settled_append, settled_append] at hsettled
  simpa using (opens_wholeAll hsettled.2.1).suffix

/-- The statements of a text and the trivia behind them are its head, and its tail begins with what
continues no document. -/
structure StopsAt (source : String) (ss : List Tree) (head tail : String) : Prop where
  text : source = head ++ tail
  fits : ∀ s ∈ ss, FitsAs NodeKind.isStatement s
  spelled : ∀ t ∈ tokensAll ss, t.Spelled
  opens : Opens source.toList ((tokensAll ss).map Token.text) tail.toList
  furthest : ∀ us rest, (∀ u ∈ us, FitsAs NodeKind.isStatement u) →
    (∀ t ∈ tokensAll us, t.Spelled) →
    Opens source.toList ((tokensAll us).map Token.text) rest → tail.toList <:+ rest
  error : tail ≠ "" → document source = .error (.unexpected head.utf8ByteSize)

theorem exists_stopsAt (source : String) : ∃ ss head tail, StopsAt source ss head tail := by
  rcases ht : Lexical.tokens source.toList with ⟨ts, x⟩
  rcases hm : many (statement? (ts.length + 1)) (ts.length + 1) ts with ⟨ss, left⟩
  obtain ⟨htokens, hss⟩ := many_sound (statement?_sound _) hm
  obtain ⟨hsource, hsettled, -⟩ := tokens_eq.mp ht
  rw [htokens, settled_append] at hsettled
  obtain ⟨hread, hleft⟩ := hsettled
  have hrest := leading_append ((Token.wholeAll left).toList ++ x)
  refine ⟨ss, Token.wholeAll (tokensAll ss) ++
    String.ofList (leading ((Token.wholeAll left).toList ++ x)).1,
    String.ofList (leading ((Token.wholeAll left).toList ++ x)).2, ?_, ?_, ?_, ?_, ?_, ?_⟩
  · simp [← String.toList_inj, hsource, htokens, hrest]
  · exact hss
  · exact fun t hmem => spelled_of_tokens ht t (by simp [htokens, hmem])
  · simpa [hsource, htokens] using opens_wholeAll hread
  · intro us rest hus hs hopens
    simpa using leading_suffix_of_opens ht (Nat.le_succ _) hm hus hs hopens
  · intro htail
    have hmore : (leading ((Token.wholeAll left).toList ++ x)).2.isEmpty = false := by
      simpa using htail
    simp [document, ht, hm, remainder_eq hleft, hmore, Tree.widthAll_eq, Token.widthAll_eq,
      String.utf8ByteSize_append]

section

variable {source head tail : String} {ss : List Tree}

theorem StopsAt.document_head (h : StopsAt source ss head tail) :
    ∃ root, document head = .ok root := by
  obtain ⟨p, hp, hcut⟩ := h.opens.exists_cut
  obtain rfl : head.toList = p := by simpa [h.text] using hp
  obtain ⟨us, trivia, hd, -⟩ := document_of_cut h.fits h.spelled hcut
  exact ⟨_, hd⟩

/-- A document in front of any part of the text is no longer than the head. -/
theorem StopsAt.le (h : StopsAt source ss head tail) {p y : String} (hp : source = p ++ y)
    {root : Tree} (hd : document p = .ok root) : p.utf8ByteSize ≤ head.utf8ByteSize := by
  obtain ⟨us, trivia, ht, hl, hfits, -⟩ := document_sound hd
  have hspelled := spelled_of_tokens ht
  have hcut : Cut p.toList ((tokensAll us).map Token.text) :=
    cut_iff_tokens.mpr ⟨_, trivia, ht, hl, rfl⟩
  obtain ⟨rest, hopens, hrest⟩ := hcut.opens (closed_statements hfits hspelled) y.toList
  have hsource : source.toList = p.toList ++ y.toList := by simp [hp]
  obtain ⟨m, hm⟩ := (h.furthest us rest hfits hspelled (hsource ▸ hopens)).trans hrest
  have hy : y = String.ofList m ++ tail := by simp [← String.toList_inj, hm]
  have hsize := congrArg String.utf8ByteSize (hp.symm.trans h.text)
  rw [hy] at hsize
  simp only [String.utf8ByteSize_append] at hsize
  omega

end

/-- The first `n` bytes of the text are a document, and no longer part from its beginning is. -/
structure ReadsUpTo (source : String) (n : Nat) : Prop where
  reads : ∃ head tail root, source = head ++ tail ∧ head.utf8ByteSize = n ∧
    document head = .ok root
  longest : ∀ head tail root, source = head ++ tail → n < head.utf8ByteSize →
    document head ≠ .ok root

theorem StopsAt.readsUpTo {source head tail : String} {ss : List Tree}
    (h : StopsAt source ss head tail) : ReadsUpTo source head.utf8ByteSize where
  reads := by
    obtain ⟨root, hroot⟩ := h.document_head
    exact ⟨head, tail, root, h.text, rfl, hroot⟩
  longest p y root hp hlt hd := absurd (h.le hp hd) (Nat.not_le_of_lt hlt)

/-- A text that is no document is reported at the end of the longest document that it begins
with. -/
theorem document_error_iff (source : String) (n : Nat) :
    document source = .error (.unexpected n) ↔ n < source.utf8ByteSize ∧ ReadsUpTo source n := by
  obtain ⟨ss, head, tail, h⟩ := exists_stopsAt source
  obtain ⟨root, hroot⟩ := h.document_head
  have hsize : source.utf8ByteSize = head.utf8ByteSize + tail.utf8ByteSize := by
    rw [h.text, String.utf8ByteSize_append]
  constructor
  · intro hd
    have htail : tail ≠ "" := by
      rintro rfl
      rw [← String.append_empty (s := head), ← h.text, hd] at hroot
      cases hroot
    have hpos := Nat.pos_of_ne_zero (mt String.utf8ByteSize_eq_zero_iff.mp htail)
    obtain rfl : head.utf8ByteSize = n := by simpa [h.error htail] using hd
    exact ⟨by omega, h.readsUpTo⟩
  · rintro ⟨hlt, hread⟩
    obtain ⟨p, y, root', hp, rfl, hd⟩ := hread.reads
    have hle := h.le hp hd
    have hge : head.utf8ByteSize ≤ p.utf8ByteSize :=
      Nat.le_of_not_lt fun hlt => hread.longest head tail root h.text hlt hroot
    have htail : tail ≠ "" := by
      rintro rfl
      rw [String.utf8ByteSize_empty] at hsize
      omega
    rw [h.error htail, Nat.le_antisymm hle hge]

end Grammar

end CallFill
