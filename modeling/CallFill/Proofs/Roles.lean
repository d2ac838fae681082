import CallFill.Offer.Candidate
import CallFill.Proofs.Cutting
import CallFill.Proofs.Lossless
import CallFill.Proofs.Neighbours
import CallFill.Proofs.Shape

/-!
# Roles are filled

The parts of a node are found among its children by kind or by position.  In a tree that was read
they are all there, and the search finds the right ones: the arrangement of the node says which
children it has, and no other one of these is of the kind or in the position that is looked for.
-/

namespace CallFill

open CallFill.Tree

/-- Only a call has a list of arguments. -/
theorem Arranged.eq_invocation {k : NodeKind} {fs : List Face} (h : Arranged k fs)
    (hmem : .node .argumentList ∈ fs) : k = .invocation := by
  have hlisted {ks : List NodeKind} (hmem : .node .argumentList ∈ Face.listed ks) :
      .argumentList ∈ ks := by simpa using Face.mem_listed hmem
  -- a list or one child of a class can hold only nodes of that class, and no class has this kind
  cases h with
  | invocation => rfl
  | compilationUnit h =>
      have hk : NodeKind.argumentList.isStatement = true := h _ (by simpa using hmem)
      cases hk
  | argumentList h | tupleType _ h | typeArgumentList _ h =>
      have hk := h _ (hlisted (by simpa using hmem))
      cases hk
  | usingDirective h | expressionStatement h | argument h | typeOf h | parenthesized h
  | aliasQualifiedName h | arrayType h | nullableType h | pointerType h | tupleElement h
  | namedElement h =>
      obtain rfl : NodeKind.argumentList = _ := by simpa using hmem
      cases h
  | localDeclaration h h' | memberAccess h h' | qualifiedName h h' =>
      obtain rfl | rfl : NodeKind.argumentList = _ ∨ NodeKind.argumentList = _ := by
        simpa using hmem
      · cases h
      · cases h'
  | _ => simp at hmem

namespace Place

section

variable {n : Place}

theorem fits_of_mem_children {q : Place} (hn : n.focus.Fits) (hq : q ∈ n.children) :
    q.focus.Fits := by
  obtain ⟨hmem, -⟩ := focus_of_mem_children hq
  cases hfocus : n.focus with
  | token t => simp [hfocus] at hmem
  | node k cs => exact (hfocus ▸ hn).of_mem (by simpa [hfocus] using hmem)

/-! ## Calls -/

/-- A call has two children, what it calls and a list of arguments. -/
structure IsCall (n callee list : Place) : Prop where
  trees : n.focus.children = [callee.focus, list.focus]
  children : n.children = [callee, list]
  callee_kind : callee.isKind .argumentList = false
  list_kind : list.isKind .argumentList = true
  callee : n.callee? = some callee
  argumentList : n.argumentList? = some list

theorem exists_isCall (hn : n.focus.Fits) (hk : n.isKind .invocation = true) :
    ∃ callee list, IsCall n callee list := by
  obtain ⟨t, above⟩ := n
  obtain ⟨cs, rfl : t = _⟩ := isKind_iff.mp hk
  obtain ⟨e, as, rfl, he, -⟩ := children_of_invocation hn
  obtain ⟨k, ds, rfl, hexpr⟩ := he.eq_node
  have hne : k ≠ .argumentList := by
    rintro rfl
    cases hexpr
  refine ⟨_, _, rfl, rfl, ?_, rfl, ?_, ?_⟩
  all_goals simp [callee?, argumentList?, child?, children, childrenFrom, isNode, isKind,
    nodeKind?, hne]

/-! ## Lists of arguments -/

/-- A list of arguments has parentheses, arguments with commas between them, and a call that it
belongs to. -/
structure IsArgumentList (n : Place) : Prop where
  trees : ∃ (opening closing : Token) (as : List Tree),
    n.focus.children = .token opening :: as ++ [.token closing] ∧ opening.kind = .openParen ∧
    closing.kind = .closeParen ∧ (as = [] ∨ ListOf (· == .argument) as)
  arguments : n.arguments = n.children
  owner : ∃ call, n.owner? = some call

theorem exists_owner (hn : n.root.Fits) (hroot : n.root.face ≠ .node .argumentList)
    (hk : n.isKind .argumentList = true) : ∃ call, n.owner? = some call := by
  obtain ⟨t, fs⟩ := n
  obtain ⟨cs, rfl : t = _⟩ := isKind_iff.mp hk
  cases fs with
  | nil => exact absurd rfl hroot
  | cons f fs =>
      have hparent : (f.fill (.node .argumentList cs)).Fits := fits_of_fillAll hn
      obtain ⟨faces, ha, hfaces⟩ := hparent.exists_arranged
      have hcall : f.kind = .invocation := ha.eq_invocation (by simp [← hfaces])
      refine ⟨⟨f.fill (.node .argumentList cs), fs⟩, ?_⟩
      simp [owner?, isKind, nodeKind?, Frame.fill, hcall]

theorem isArgumentList (hn : n.root.Fits) (hroot : n.root.face ≠ .node .argumentList)
    (hk : n.isKind .argumentList = true) : IsArgumentList n := by
  obtain ⟨cs, hfocus⟩ := isKind_iff.mp hk
  have hfits : n.focus.Fits := fits_of_fillAll hn
  rw [hfocus] at hfits
  obtain ⟨opening, closing, as, rfl, ho, hc, has⟩ := children_of_argumentList hfits
  refine ⟨⟨opening, closing, as, by rw [hfocus]; rfl, ho, hc, has⟩, ?_, exists_owner hn hroot hk⟩
  refine List.filter_eq_self.mpr fun q hq => ?_
  obtain ⟨hmem, hnode⟩ := focus_of_mem_children hq
  have hq : q.focus ∈ as := by
    rw [hfocus] at hmem
    rcases List.mem_append.mp hmem with hmem | hmem
    · rcases List.mem_cons.mp hmem with heq | hmem
      · simp [heq, isNode] at hnode
      · exact hmem
    · simp [List.mem_singleton.mp hmem, isNode] at hnode
  rcases has with rfl | hlist
  · cases hq
  · obtain ⟨k, ds, hfocus, hk⟩ := isOf_iff.mp (hlist.isOf_of_mem hq hnode)
    exact isKind_iff.mpr ⟨ds, eq_of_beq hk ▸ hfocus⟩

/-! ## Members -/

/-- A member access has an expression and a name, and the name has an identifier. -/
structure IsMemberAccess (n receiver member : Place) (name : String) : Prop where
  children : n.children = [receiver, member]
  member_kind : member.isKind .identifierName = true ∨ member.isKind .genericName = true
  receiver : n.receiver? = some receiver
  member : n.member? = some member
  memberName : n.memberName? = some name

theorem exists_childToken {p : Place} (h : FitsAs NodeKind.isSimpleName p.focus) :
    ∃ i, i ∈ p.focus.tokens ∧ i.kind = .identifier ∧ p.childToken? .identifier = some i := by
  obtain ⟨t, above⟩ := p
  obtain ⟨k, cs, rfl : t = _, hk⟩ := h.eq_node
  cases k <;> cases hk
  case identifierName =>
    obtain ⟨i, rfl, hi⟩ := children_of_identifierName h.fits
    exact ⟨i, by simp, hi, by simp [childToken?, childTokens, token?, hi]⟩
  case genericName =>
    obtain ⟨i, as, rfl, hi, -⟩ := children_of_genericName h.fits
    exact ⟨i, by simp, hi, by simp [childToken?, childTokens, token?, hi]⟩

theorem memberName?_of_childToken? {access member : Place} {ident : Token}
    (hmember : access.member? = some member)
    (hident : member.childToken? .identifier = some ident) :
    access.memberName? = some ident.text := by
  rw [memberName?, hmember, Option.bind_some, hident, Option.map_some]

theorem exists_isMemberAccess (hn : n.focus.Fits) (hk : n.isKind .memberAccess = true) :
    ∃ receiver member name, IsMemberAccess n receiver member name := by
  obtain ⟨t, above⟩ := n
  obtain ⟨cs, rfl : t = _⟩ := isKind_iff.mp hk
  obtain ⟨e, dot, r, rfl, he, -, hr⟩ := children_of_memberAccess hn
  obtain ⟨j, ds, rfl, -⟩ := he.eq_node
  obtain ⟨k, es, rfl, hname⟩ := hr.eq_node
  let member : Place := ⟨.node k es, ⟨.memberAccess, [.token dot, .node j ds], []⟩ :: above⟩
  obtain ⟨i, -, -, hi⟩ := exists_childToken (p := member) hr
  refine ⟨_, member, i.text, rfl, ?_, rfl, rfl, memberName?_of_childToken? rfl hi⟩
  cases k <;> cases hname
  · exact .inl rfl
  · exact .inr rfl

/-- A name with type arguments has one identifier and the list of its arguments. -/
structure IsGenericName (n arguments : Place) (ident : Token) : Prop where
  children : n.children = [arguments]
  childTokens : n.childTokens = [ident]
  ident : n.childToken? .identifier = some ident
  arguments_kind : arguments.isKind .typeArgumentList = true
  arguments : n.child? .typeArgumentList = some arguments

theorem exists_isGenericName (hn : n.focus.Fits) (hk : n.isKind .genericName = true) :
    ∃ arguments ident, IsGenericName n arguments ident := by
  obtain ⟨t, above⟩ := n
  obtain ⟨cs, rfl : t = _⟩ := isKind_iff.mp hk
  obtain ⟨i, as, rfl, hi, -⟩ := children_of_genericName hn
  refine ⟨_, i, rfl, rfl, ?_, rfl, rfl⟩
  simp [childToken?, childTokens, token?, hi]

theorem exists_inside (hn : n.focus.Fits) (hk : n.isKind .parenthesized = true) :
    ∃ inside, n.children = [inside] := by
  obtain ⟨t, above⟩ := n
  obtain ⟨cs, rfl : t = _⟩ := isKind_iff.mp hk
  obtain ⟨opening, e, closing, rfl, -, he, -⟩ := children_of_parenthesized hn
  obtain ⟨j, ds, rfl, -⟩ := he.eq_node
  exact ⟨_, rfl⟩

theorem exists_typeOperand (hn : n.focus.Fits) (hk : n.isKind .typeOf = true) :
    ∃ operand, n.typeOperand? = some operand ∧ n.children = [operand] := by
  obtain ⟨t, above⟩ := n
  obtain ⟨cs, rfl : t = _⟩ := isKind_iff.mp hk
  obtain ⟨word, opening, u, closing, rfl, -, -, hu, -⟩ := children_of_typeOf hn
  obtain ⟨j, ds, rfl, hj⟩ := hu.eq_node
  refine ⟨_, ?_, rfl⟩
  simp [typeOperand?, children, childrenFrom, isNode, Kind.isType, hj]

/-! ## Declarations -/

/-- A declaration has a type, a value and one identifier. -/
structure IsDeclaration (n type value : Place) (name : Token) : Prop where
  children : n.children = [type, value]
  type_kind : type.focus.isOf NodeKind.isType
  value_kind : value.focus.isOf NodeKind.isExpr
  name : n.childTokens.filter (·.kind == .identifier) = [name]

theorem exists_isDeclaration (hn : n.focus.Fits) (hk : n.isKind .localDeclaration = true) :
    ∃ type value name, IsDeclaration n type value name := by
  obtain ⟨t, above⟩ := n
  obtain ⟨cs, rfl : t = _⟩ := isKind_iff.mp hk
  obtain ⟨u, i, equals, e, semi, rfl, hu, hi, hq, he, hs⟩ := children_of_localDeclaration hn
  obtain ⟨j, ds, rfl, hj⟩ := hu.eq_node
  obtain ⟨k, es, rfl, hk'⟩ := he.eq_node
  refine ⟨_, _, i, rfl, hj, hk', ?_⟩
  rw [show childTokens _ = [i, equals, semi] from rfl]
  simp [hi, hq, hs]

end

end Place

/-! ## Every node -/

/-- The roles of a node are filled, and it has texts. -/
structure Place.IsFilled (n : Place) : Prop where
  invocation : n.isKind .invocation = true → ∃ callee list, IsCall n callee list
  argumentList : n.isKind .argumentList = true → IsArgumentList n
  memberAccess : n.isKind .memberAccess = true →
    ∃ receiver member name, IsMemberAccess n receiver member name
  typeOf : n.isKind .typeOf = true →
    ∃ operand, n.typeOperand? = some operand ∧ n.children = [operand]
  localDeclaration : n.isKind .localDeclaration = true →
    ∃ type value name, IsDeclaration n type value name
  candidate : Offer.candidateAt n ≠ .error .notInvocation
  tokens : n.focus.tokens ≠ []
  texts : ∀ t ∈ n.focus.tokens, t.kind ≠ .endOfFile → t.text ≠ ""

theorem Offer.candidateAt_ne_notInvocation {n : Place} (hn : n.root.Fits)
    (hroot : n.root.face ≠ .node .argumentList) : candidateAt n ≠ .error .notInvocation := by
  rw [candidateAt]
  split
  · simp
  · next list hlist =>
    have hlistroot : list.root = n.root :=
      Place.root_of_mem_ancestors (List.mem_of_find?_eq_some hlist)
    obtain ⟨call, hcall⟩ := Place.exists_owner (hlistroot ▸ hn) (hlistroot ▸ hroot)
      (by simpa using List.find?_some hlist)
    simp only [hcall]
    split
    · simp
    · split <;> simp

/-- The trees of documents and of expressions. -/
structure Tree.IsRead (root : Tree) : Prop where
  fits : root.Fits
  face : root.face ≠ .node .argumentList
  texts : ∀ t ∈ root.tokens, t.kind ≠ .endOfFile → t.text ≠ ""

theorem Place.isFilled {n : Place} (h : n.root.IsRead) : n.IsFilled := by
  have hfits : n.focus.Fits := fits_of_fillAll h.fits
  refine ⟨exists_isCall hfits, isArgumentList h.fits h.face, exists_isMemberAccess hfits,
    exists_typeOperand hfits, exists_isDeclaration hfits,
    Offer.candidateAt_ne_notInvocation h.fits h.face, hfits.tokens_ne_nil, fun t ht => ?_⟩
  refine h.texts t ?_
  rw [Place.root, tokens_fillAll]
  simp [ht]

namespace Grammar

theorem document_isRead {source : String} {root : Tree} (h : document source = .ok root) :
    root.IsRead := by
  have hfits := document_fits h
  obtain ⟨ss, trivia, ht, -, -, rfl⟩ := document_sound h
  refine ⟨hfits, by simp, fun t hmem hk => ?_⟩
  rw [tokens_node, tokensAll_append] at hmem
  rcases List.mem_append.mp hmem with hmem | hmem
  · exact (Lexical.spelled_of_tokens ht t hmem).text_ne_empty
  · obtain rfl : t = ⟨.endOfFile, String.ofList trivia, "", ""⟩ := by
      simpa [endOfFile] using hmem
    exact absurd rfl hk

theorem expression_isRead {source : String} {root : Tree} (h : expression source = .ok root) :
    root.IsRead := by
  have hfits := expression_fits h
  obtain ⟨e, trivia, ht, -, he, rfl⟩ := expression_sound h
  obtain ⟨k, hface, hk⟩ := he.isOf.face_eq
  refine ⟨hfits, ?_, fun t hmem _ => ?_⟩
  · rw [face_appendTrailing, hface]
    rintro ⟨⟩
    cases hk
  · obtain ⟨init, last, hlast⟩ : ∃ init last, e.tokens = init ++ [last] :=
      ⟨_, _, (List.dropLast_concat_getLast he.fits.tokens_ne_nil).symm⟩
    have htexts : ∀ u ∈ init ++ [last], u.text ≠ "" := fun u hu =>
      (Lexical.spelled_of_tokens ht u (hlast ▸ hu)).text_ne_empty
    rw [tokens_appendTrailing _ hlast] at hmem
    rcases List.mem_append.mp hmem with hmem | hmem
    · exact htexts t (List.mem_append_left _ hmem)
    · obtain rfl := List.mem_singleton.mp hmem
      exact htexts last (by simp)

/-- The roles of all nodes are filled in every tree that is read. -/
theorem reading_isFilled (source : String) {root : Tree}
    (h : document source = .ok root ∨ expression source = .ok root) :
    ∀ n ∈ (Place.ofRoot root).descendants, n.IsFilled := by
  have hread : root.IsRead := h.elim document_isRead expression_isRead
  intro n hn
  obtain ⟨-, rfl⟩ := Place.mem_descendants_ofRoot.mp hn
  exact Place.isFilled hread

/-- A declaration of what a generic call with two arguments gives. -/
theorem reading_isFilled_declaration : ∃ root,
    document "T x = a.b<int>(typeof(U), 1);" = .ok root ∧
      ∀ n ∈ (Place.ofRoot root).descendants, n.IsFilled := by
  have hok : (document "T x = a.b<int>(typeof(U), 1);").isOk = true := by decide +kernel
  obtain ⟨root, h⟩ := exists_ok_of_isOk hok
  exact ⟨root, h, reading_isFilled _ (.inl h)⟩

end Grammar

end CallFill
