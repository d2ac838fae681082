import CallFill.Host.Basic
import CallFill.Offer.Request
import CallFill.Tree.Labelled

/-! # Sessions

A session keeps the documents that were opened and made so far, the current one among them,
and the actions that were offered last. An edit never changes a document: it appends a new
one and makes that the current one. -/

namespace CallFill

open Text Offer

/-- A document of a session, with a label for every node of its tree. The label of the root
is the stamp of the tree. -/
structure Sheet where
  document : Document
  labelled : Labelled

structure Session where
  sheets : List Sheet
  current : Nat
  offered : List Action
  settings : Settings
  scope : Scope
  cancelled : Bool
  /-- The next free label. -/
  next : Nat

/-- Why a step of a session fails. -/
inductive SessionError where
  | noDocument
  | noNode
  | notCall
  | noChoice
  | failure (e : Failure)
  | unreadable (e : Grammar.SyntaxError)
deriving DecidableEq, Repr

/-- A node, by a selection in a document and a number of steps up from there. -/
structure NodeRef where
  document : Option Nat
  span : Span
  up : Nat
deriving DecidableEq, Repr

namespace Session

def start (settings : Settings) (scope : Scope) : Session :=
  ⟨[], 0, [], settings, scope, false, 0⟩

def sheet (s : Session) (i : Nat) : Except SessionError Sheet :=
  match s.sheets[i]? with
  | some sheet => .ok sheet
  | none => .error .noDocument

def currentSheet (s : Session) : Except SessionError Sheet := s.sheet s.current

/-- The place some steps above another. -/
def above : (steps : Nat) → Place → Option Place
  | 0, p => some p
  | steps + 1, p => p.parent?.bind (above steps)

/-- The node that a reference names, in its document. -/
def find (s : Session) (r : NodeRef) : Except SessionError (Sheet × Place) := do
  let sheet ← s.sheet (r.document.getD s.current)
  match ((Place.ofRoot sheet.document.root).find? r.span).bind (above r.up) with
  | some p => return (sheet, p)
  | none => throw .noNode

/-! ## Documents -/

/-- Appends a sheet and makes it the current one. -/
def add (s : Session) (sheet : Sheet) : Session :=
  { s with sheets := s.sheets ++ [sheet], current := s.sheets.length }

/-- A labelled tree as a snapshot. -/
def snapshotOf (t : Labelled) : Snapshot := ⟨t.forget, t.label?.getD 0⟩

/-- Appends the next version of a document, with another tree. -/
def addNext (s : Session) (d : Document) (t : Labelled) : Session × Document :=
  let d := d.next (snapshotOf t)
  (s.add ⟨d, t⟩, d)

def openDocument (s : Session) (path source : String) : Except Failure (Session × Document) :=
  match Grammar.document source with
  | .error e => .error (.unreadable e)
  | .ok root =>
    let (t, next) := (Labelled.fresh root).run s.next
    let d : Document := ⟨path, 0, snapshotOf t⟩
    .ok ({ s with next := next }.add ⟨d, t⟩, d)

/-- Makes a document the current one. Naming one that is not there leaves the session without
a current document. -/
def use (s : Session) (i : Nat) : Session := { s with current := i }

/-! ## Offers -/

/-- Serves a request for the current document; what it offers replaces what was offered. -/
def request (s : Session) (r : Request) : Except Failure (Session × List Action) :=
  let run : Run Unit := ⟨(), s.cancelled⟩
  match (r.serve s.settings s.scope.host).run run with
  | ((.error e, _), _) => .error e
  | ((.ok (), r), _) => .ok ({ s with offered := r.actions }, r.actions)

/-- Offers given overloads for a call, which need not belong to the current document. -/
def compose (s : Session) (r : NodeRef) (overloads : List Method) :
    Except SessionError (Session × List Action) := do
  let (found, p) ← s.find r
  if !p.isKind .invocation then throw .notCall
  let here ← s.currentSheet
  let actions := (Action.compose here.document ⟨p, found.document.snapshot.stamp⟩ overloads
    s.settings).toList
  return ({ s with offered := actions }, actions)

/-- The labelled tree after a rewrite: the call, its new argument list and the nodes above
the call are new. -/
def relabel (r : Rewrite) (t : Labelled) : StateM Nat Labelled := do
  let path := r.call.place.path
  match t.at? path, r.call.place.argumentList? with
  | some call, some list =>
    let arguments ← Labelled.fresh (r.settings.wildcards r.parameterTypes)
    let call ← call.setChild list.index arguments
    let call ← call.appendTrailing r.settings.lineEnding.lineBreak
    Labelled.replaceAt call path t
  | _, _ => return t

/-- Applies one of the offered rewrites to the document it was offered for. -/
def apply (s : Session) (choice : Nat) : Except SessionError (Session × Document) :=
  match (s.offered.flatMap Action.rewrites)[choice]? with
  | none => .error .noChoice
  | some r =>
    let stamp := r.document.snapshot.stamp
    let old := s.sheets.find? (·.document.snapshot.stamp == stamp)
    let (t, next) := match old with
      | some sheet => (relabel r sheet.labelled).run s.next
      | none => (Labelled.fresh r.document.root).run s.next
    match r.apply s.cancelled (snapshotOf t).stamp with
    | .error e => .error (.failure e)
    | .ok d => .ok ({ s with next := next }.add ⟨d, t⟩, d)

/-! ## Edits -/

/-- Replaces a node by an expression. -/
def replace (s : Session) (r : NodeRef) (source : String) :
    Except SessionError (Session × Document) := do
  let (sheet, p) ← s.find r
  let e ← (Grammar.expression source).mapError .unreadable
  let here ← s.currentSheet
  let edit : StateM Nat Labelled := do
    let new ← Labelled.fresh e
    Labelled.replaceAt new p.path sheet.labelled
  let (t, next) := edit.run s.next
  return { s with next := next }.addNext here.document t

/-- Appends trivia to a node. -/
def append (s : Session) (r : NodeRef) (trivia : String) :
    Except SessionError (Session × Document) := do
  let (sheet, p) ← s.find r
  let here ← s.currentSheet
  let edit : StateM Nat Labelled := do
    match sheet.labelled.at? p.path with
    | some old => Labelled.replaceAt (← old.appendTrailing trivia) p.path sheet.labelled
    | none => return sheet.labelled
  let (t, next) := edit.run s.next
  return { s with next := next }.addNext here.document t

/-! ## Comparisons -/

/-- How the current document compares with a fresh reading of its text: the trees may be
equal, the documents never are. -/
def reread (s : Session) : Except SessionError (Bool × Bool) := do
  let here ← s.currentSheet
  let again ← (Document.read here.document.path here.document.text s.next).mapError
    fun e => .failure (.unreadable e)
  return (here.document.root == again.root, here.document == again)

structure Likeness where
  /-- The same node of the same tree. -/
  identical : Bool
  /-- Equal trees. -/
  equal : Bool
  /-- One node, perhaps of two trees. -/
  shared : Bool
  /-- Nodes of one tree. -/
  sameRoot : Bool
deriving DecidableEq, Repr

/-- The label of the node at a place. -/
def labelAt (sheet : Sheet) (p : Place) : Option Nat := (sheet.labelled.at? p.path).bind (·.label?)

def compare (s : Session) (a b : NodeRef) : Except SessionError Likeness := do
  let (sheetA, p) ← s.find a
  let (sheetB, q) ← s.find b
  let shared := labelAt sheetA p == labelAt sheetB q
  let sameRoot := sheetA.labelled.label? == sheetB.labelled.label?
  return ⟨p.start == q.start && shared && sameRoot, p.focus == q.focus, shared, sameRoot⟩

/-- Which of the nodes below two roots are shared, pair by pair, and whether the documents
are the same. -/
def sharing (s : Session) (i j : Nat) : Except SessionError (List Bool × Bool) := do
  let a ← s.sheet i
  let b ← s.sheet j
  let labels (t : Labelled) := t.children.filterMap Labelled.label?
  let pairs := (labels a.labelled).zip (labels b.labelled)
  return (pairs.map fun (x, y) => x == y, a.document == b.document)

end Session

end CallFill
