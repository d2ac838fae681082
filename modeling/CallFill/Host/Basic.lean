import CallFill.Binding.Scope
import CallFill.Document
import CallFill.Failure

/-! # Hosts

A host gives the tree of a document and a binder that answers what the nodes of a tree
mean. -/

namespace CallFill

/-! ## Queries

A request asks its host questions one after the other. While it answers, a host may change
its own state and may ask for the request to be cancelled; once asked, this stands. -/

/-- An answer, the state of the host after it, and whether cancellation was asked for. -/
structure Reply (σ α : Type) where
  answer : α
  host : σ
  cancels : Bool

/-- A question, put to a host in a state while cancellation has or has not been asked for. -/
abbrev Query (σ α : Type) := σ → (cancelled : Bool) → Reply σ α

/-- Where a request stands. -/
structure Run (σ : Type) where
  host : σ
  cancelled : Bool

namespace Query

variable {σ α : Type}

/-- A question with a fixed answer. -/
def pure (a : α) : Query σ α := fun host _ => ⟨a, host, false⟩

/-- Puts a question. -/
def ask (q : Query σ α) : StateM (Run σ) α := fun r =>
  let reply := q r.host r.cancelled
  (reply.answer, ⟨reply.host, r.cancelled || reply.cancels⟩)

end Query

/-! ## Binders and hosts -/

/-- Answers questions about the meaning of nodes. -/
structure Binder (σ : Type) where
  /-- The type of an expression. -/
  typeOf : Place → Query σ (Option TypeSymbol)
  /-- What a call binds to. -/
  resolve : Place → Query σ Resolution
  /-- Every method of the called name on the type of the receiver. -/
  memberGroup : Place → Query σ (List Method)
  /-- The display names of the libraries that the project references. -/
  references : Query σ (List String)

/-- The node that a host gives for the root of a document. It may stand below others: `stamp`
tells the subtree at it from other trees, `treeStamp` the whole tree around it. -/
structure HostRoot where
  place : Place
  stamp : Nat
  treeStamp : Nat
  treeStamp_eq : place.above = [] → treeStamp = stamp

namespace HostRoot

def ofSnapshot (s : Snapshot) : HostRoot := ⟨.ofRoot s.root, s.stamp, s.stamp, fun _ => rfl⟩

/-- The subtree at the node. -/
def snapshot (r : HostRoot) : Snapshot := ⟨r.place.focus, r.stamp⟩

end HostRoot

structure Host (σ : Type) where
  tree : Document → Query σ (Except Failure HostRoot)
  binder : Document → Query σ (Except Failure (Binder σ))

variable {σ : Type}

/-- A scope answers from its declarations and changes nothing. -/
def Scope.binder (s : Scope) : Binder σ where
  typeOf e := .pure (s.typeOf e)
  resolve call := .pure (s.resolve call)
  memberGroup call := .pure (s.memberGroup call)
  references := .pure s.references

/-- The host that binds every document in one scope. It refuses once cancelled. -/
def Scope.host (s : Scope) : Host σ where
  tree d := fun host cancelled =>
    ⟨if cancelled then .error .cancelled else .ok (.ofSnapshot d.snapshot), host, false⟩
  binder _ := fun host cancelled =>
    ⟨if cancelled then .error .cancelled else .ok s.binder, host, false⟩

end CallFill
