import CallFill.Grammar.Source
import CallFill.Tree.Place

/-!
# Arranged trees

Which children a node of each kind may have.  A node sees only the faces of its children: the
text of a keyword, the kind of any other token, the kind of a node.  So the rule of a kind is a
rule on a list of faces, a tree fits when every node in it keeps the rule of its kind, and to put
another subtree of the same kind in the place of one never breaks a rule.
-/

namespace CallFill

/-! ## Classes of kinds -/

namespace NodeKind

/-- One identifier, with or without type arguments. -/
def isSimpleName : NodeKind → Bool
  | .identifierName | .genericName => true
  | _ => false

/-- One or more simple names between dots, perhaps behind an alias. -/
def isName : NodeKind → Bool
  | .identifierName | .genericName | .qualifiedName | .aliasQualifiedName => true
  | _ => false

/-- The first part of a name: a simple name, perhaps behind an alias. -/
def isNameStart (k : NodeKind) : Bool := k.isSimpleName || k == .aliasQualifiedName

def isExpr : NodeKind → Bool
  | .invocation | .memberAccess | .typeOf | .parenthesized | .literal | .this
  | .identifierName | .genericName | .aliasQualifiedName | .predefinedType => true
  | _ => false

def isStatement : NodeKind → Bool
  | .usingDirective | .localDeclaration | .expressionStatement => true
  | _ => false

/-- The kinds that stand below a statement. -/
def isInner (k : NodeKind) : Bool := !k.isStatement && k != .compilationUnit

theorem isName_of_isSimpleName {k : NodeKind} (h : k.isSimpleName = true) : k.isName = true := by
  cases k <;> simp_all [isSimpleName, isName]

theorem isName_of_isNameStart {k : NodeKind} (h : k.isNameStart = true) : k.isName = true := by
  cases k <;> simp_all [isNameStart, isSimpleName, isName]

theorem isExpr_of_isNameStart {k : NodeKind} (h : k.isNameStart = true) : k.isExpr = true := by
  cases k <;> simp_all [isNameStart, isSimpleName, isExpr]

theorem isType_of_isName {k : NodeKind} (h : k.isName = true) : k.isType = true := by
  cases k <;> simp_all [isName, isType]

theorem isInner_of_isType {k : NodeKind} (h : k.isType = true) : k.isInner = true := by
  cases k <;> simp_all [isType, isInner, isStatement]

theorem isInner_of_isName {k : NodeKind} (h : k.isName = true) : k.isInner = true :=
  isInner_of_isType (isType_of_isName h)

theorem isInner_of_isSimpleName {k : NodeKind} (h : k.isSimpleName = true) :
    k.isInner = true := isInner_of_isName (isName_of_isSimpleName h)

theorem isInner_of_isExpr {k : NodeKind} (h : k.isExpr = true) : k.isInner = true := by
  cases k <;> simp_all [isExpr, isInner, isStatement]

end NodeKind

/-! ## Faces -/

/-- What a node sees of a child. -/
inductive Face where
  /-- A keyword of this text. -/
  | word (text : String)
  /-- A token of this kind that is no keyword. -/
  | token (kind : TokenKind)
  | node (kind : NodeKind)
deriving DecidableEq, Repr

def Token.face (t : Token) : Face := if t.kind = .keyword then .word t.text else .token t.kind

namespace Tree

def face : Tree → Face
  | .token t => t.face
  | .node k _ => .node k

@[simp] theorem face_node (k : NodeKind) (cs : List Tree) : (node k cs).face = .node k := rfl

@[simp] theorem face_token (t : Token) : (token t).face = t.face := rfl

theorem face_eq_node_iff {t : Tree} {k : NodeKind} :
    t.face = .node k ↔ ∃ cs, t = .node k cs := by
  cases t with
  | token t => simp [face, Token.face]; split <;> simp
  | node j cs => simp [face]

theorem face_eq_token_iff {t : Tree} {k : TokenKind} :
    t.face = .token k ↔ ∃ u : Token, t = .token u ∧ u.kind = k ∧ k ≠ .keyword := by
  cases t with
  | token t =>
      simp only [face, Token.face]
      split
      · next h => simpa [h] using fun hk : TokenKind.keyword = k => hk.symm
      · next h => simp; rintro rfl; exact h
  | node j cs => simp [face]

theorem face_eq_word_iff {t : Tree} {w : String} :
    t.face = .word w ↔ ∃ u : Token, t = .token u ∧ u.kind = .keyword ∧ u.text = w := by
  cases t with
  | token t =>
      simp only [face, Token.face]
      split
      · next h => simp [h]
      · next h => simp [h]
  | node j cs => simp [face]

end Tree

theorem Token.face_of_kind {t : Token} {k : TokenKind} (h : t.kind = k) (hk : k ≠ .keyword) :
    t.face = .token k := by
  simp [Token.face, h, hk]

theorem Token.face_of_keyword {t : Token} (h : t.kind = .keyword) : t.face = .word t.text := by
  simp [Token.face, h]

/-! ## The rules -/

/-- Nodes of the given kinds with a comma before each. -/
def Face.more (ks : List NodeKind) : List Face := ks.flatMap fun k => [.token .comma, .node k]

/-- Nodes of the given kinds with commas between them. -/
def Face.listed : List NodeKind → List Face
  | [] => []
  | k :: ks => .node k :: more ks

@[simp] theorem Face.more_nil : more [] = [] := rfl

@[simp] theorem Face.more_cons (k : NodeKind) (ks : List NodeKind) :
    more (k :: ks) = .token .comma :: .node k :: more ks := rfl

theorem Face.mem_listed {f : Face} {ks : List NodeKind} (h : f ∈ listed ks) :
    f = .token .comma ∨ ∃ k ∈ ks, f = .node k := by
  cases ks with
  | nil => cases h
  | cons k ks =>
      rcases List.mem_cons.mp h with rfl | h
      · exact .inr ⟨k, List.mem_cons_self, rfl⟩
      · obtain ⟨j, hj, hf⟩ := List.mem_flatMap.mp h
        rcases List.mem_cons.mp hf with rfl | hf
        · exact .inl rfl
        · exact .inr ⟨j, List.mem_cons_of_mem _ hj, List.mem_singleton.mp hf⟩

/-- The faces that the children of a node of each kind may have. -/
inductive Arranged : NodeKind → List Face → Prop
  | compilationUnit {ks : List NodeKind} (h : ∀ k ∈ ks, k.isStatement = true) :
      Arranged .compilationUnit (ks.map .node ++ [.token .endOfFile])
  | usingDirective {n : NodeKind} (h : n.isName = true) :
      Arranged .usingDirective [.word "using", .node n, .token .semicolon]
  | localDeclaration {k e : NodeKind} (hk : k.isType = true) (he : e.isExpr = true) :
      Arranged .localDeclaration
        [.node k, .token .identifier, .token .equals, .node e, .token .semicolon]
  | expressionStatement {e : NodeKind} (h : e.isExpr = true) :
      Arranged .expressionStatement [.node e, .token .semicolon]
  | invocation {e : NodeKind} (h : e.isExpr = true) :
      Arranged .invocation [.node e, .node .argumentList]
  | argumentList {ks : List NodeKind} (h : ∀ k ∈ ks, k = .argument) :
      Arranged .argumentList (.token .openParen :: Face.listed ks ++ [.token .closeParen])
  | argument {e : NodeKind} (h : e.isExpr = true) : Arranged .argument [.node e]
  | memberAccess {e n : NodeKind} (he : e.isExpr = true) (hn : n.isSimpleName = true) :
      Arranged .memberAccess [.node e, .token .dot, .node n]
  | typeOf {k : NodeKind} (h : k.isType = true) :
      Arranged .typeOf [.word "typeof", .token .openParen, .node k, .token .closeParen]
  | parenthesized {e : NodeKind} (h : e.isExpr = true) :
      Arranged .parenthesized [.token .openParen, .node e, .token .closeParen]
  | number : Arranged .literal [.token .number]
  | string : Arranged .literal [.token .string]
  | constant {w : String} (h : w ∈ ["true", "false", "null"]) : Arranged .literal [.word w]
  | this : Arranged .this [.word "this"]
  | identifierName : Arranged .identifierName [.token .identifier]
  | genericName : Arranged .genericName [.token .identifier, .node .typeArgumentList]
  | typeArgumentList {ks : List NodeKind} (hne : ks ≠ []) (h : ∀ k ∈ ks, k.isType = true) :
      Arranged .typeArgumentList
        (.token .lessThan :: Face.listed ks ++ [.token .greaterThan])
  | qualifiedName {l r : NodeKind} (hl : l.isName = true) (hr : r.isSimpleName = true) :
      Arranged .qualifiedName [.node l, .token .dot, .node r]
  | aliasQualifiedName {r : NodeKind} (h : r.isSimpleName = true) :
      Arranged .aliasQualifiedName [.node .identifierName, .token .colonColon, .node r]
  | predefinedType {w : String} (h : w ∈ Lexical.builtinTypes) :
      Arranged .predefinedType [.word w]
  | arrayType {k : NodeKind} (h : k.isType = true) :
      Arranged .arrayType [.node k, .node .rankSpecifier]
  | rankSpecifier (n : Nat) :
      Arranged .rankSpecifier
        (.token .openBracket :: List.replicate n (.token .comma) ++ [.token .closeBracket])
  | nullableType {k : NodeKind} (h : k.isType = true) :
      Arranged .nullableType [.node k, .token .question]
  | pointerType {k : NodeKind} (h : k.isType = true) :
      Arranged .pointerType [.node k, .token .asterisk]
  | tupleType {ks : List NodeKind} (hlen : 2 ≤ ks.length) (h : ∀ k ∈ ks, k = .tupleElement) :
      Arranged .tupleType (.token .openParen :: Face.listed ks ++ [.token .closeParen])
  | tupleElement {k : NodeKind} (h : k.isType = true) : Arranged .tupleElement [.node k]
  | namedElement {k : NodeKind} (h : k.isType = true) :
      Arranged .tupleElement [.node k, .token .identifier]

namespace Tree

/-- Every node keeps the rule of its kind. -/
inductive Fits : Tree → Prop
  | token (t : Token) : Fits (.token t)
  | node {k : NodeKind} {fs : List Face} {cs : List Tree} (arranged : Arranged k fs)
      (faces : cs.map face = fs) (children : ∀ c ∈ cs, Fits c) : Fits (.node k cs)

/-- The tree is a node whose kind is in a class. -/
def isOf (p : NodeKind → Bool) : Tree → Prop
  | .token _ => False
  | .node k _ => p k = true

@[simp] theorem isOf_node (p : NodeKind → Bool) (k : NodeKind) (cs : List Tree) :
    (node k cs).isOf p ↔ p k = true := Iff.rfl

@[simp] theorem isOf_token (p : NodeKind → Bool) (t : Token) : ¬ (token t).isOf p := id

theorem isOf_iff {p : NodeKind → Bool} {t : Tree} :
    t.isOf p ↔ ∃ k cs, t = .node k cs ∧ p k = true := by
  cases t with
  | token t => simp
  | node k cs => simp

theorem isOf.mono {p q : NodeKind → Bool} {t : Tree} (h : t.isOf p)
    (hpq : ∀ {k}, p k = true → q k = true) : t.isOf q := by
  obtain ⟨k, cs, rfl, hk⟩ := isOf_iff.mp h
  exact hpq hk

theorem isOf.face_eq {p : NodeKind → Bool} {t : Tree} (h : t.isOf p) :
    ∃ k, t.face = .node k ∧ p k = true := by
  obtain ⟨k, cs, rfl, hk⟩ := isOf_iff.mp h
  exact ⟨k, rfl, hk⟩

theorem isOf_of_face {p : NodeKind → Bool} {t : Tree} {k : NodeKind} (h : t.face = .node k)
    (hk : p k = true) : t.isOf p := by
  obtain ⟨cs, rfl⟩ := face_eq_node_iff.mp h
  exact hk

/-- Trees of a class have faces of kinds of that class. -/
theorem exists_kinds {p : NodeKind → Bool} {ts : List Tree} (h : ∀ t ∈ ts, t.isOf p) :
    ∃ ks : List NodeKind, (∀ k ∈ ks, p k = true) ∧ ts.map face = ks.map .node := by
  induction ts with
  | nil => exact ⟨[], by simp, rfl⟩
  | cons t ts ih =>
      obtain ⟨ks, hks, hmap⟩ := ih fun u hu => h u (List.mem_cons_of_mem _ hu)
      obtain ⟨k, hface, hk⟩ := (h t List.mem_cons_self).face_eq
      exact ⟨k :: ks, by simpa using ⟨hk, hks⟩, by simp [hface, hmap]⟩

theorem Fits.of_mem {k : NodeKind} {cs : List Tree} (h : Fits (.node k cs)) {c : Tree}
    (hc : c ∈ cs) : c.Fits := by
  cases h with
  | node _ _ hcs => exact hcs c hc

theorem Fits.exists_arranged {k : NodeKind} {cs : List Tree} (h : Fits (.node k cs)) :
    ∃ fs, Arranged k fs ∧ cs.map face = fs := by
  cases h with
  | node ha hf _ => exact ⟨_, ha, hf⟩

end Tree

/-! ## Replacing a subtree -/

/-- Another subtree with the same face keeps the rule of the node above. -/
theorem Frame.fits_fill {f : Frame} {t u : Tree} (h : (f.fill t).Fits) (hface : u.face = t.face)
    (hu : u.Fits) : (f.fill u).Fits := by
  obtain ⟨fs, ha, hf⟩ := h.exists_arranged
  refine .node ha ?_ ?_
  · rw [← hf]
    simp [hface]
  · intro c hc
    rcases List.mem_append.mp hc with hc | hc
    · exact h.of_mem (List.mem_append_left _ hc)
    · rcases List.mem_cons.mp hc with rfl | hc
      · exact hu
      · exact h.of_mem (List.mem_append_right _ (List.mem_cons_of_mem _ hc))

theorem Frame.fits_of_fill {f : Frame} {t : Tree} (h : (f.fill t).Fits) : t.Fits :=
  h.of_mem (List.mem_append_right _ List.mem_cons_self)

namespace Place

theorem fits_of_fillAll {t : Tree} {fs : List Frame} (h : (fillAll t fs).Fits) : t.Fits := by
  induction fs generalizing t with
  | nil => exact h
  | cons f fs ih => exact Frame.fits_of_fill (ih h)

/-- Another subtree with the same face keeps all rules of the tree around it. -/
theorem fits_fillAll {t u : Tree} {fs : List Frame} (h : (fillAll t fs).Fits)
    (hface : u.face = t.face) (hu : u.Fits) : (fillAll u fs).Fits := by
  induction fs generalizing t u with
  | nil => exact hu
  | cons f fs ih =>
      have hfill : (f.fill t).Fits := fits_of_fillAll (t := f.fill t) h
      exact ih h rfl (Frame.fits_fill hfill hface hu)

end Place

end CallFill
