import CallFill.Host.Basic

/-! # Scripted hosts

A scripted host binds in a scope or gives fixed answers, fails or cancels at a chosen point,
and records what it was asked for: a host to try a request against. -/

namespace CallFill

/-- What a host was asked for. -/
inductive Asked where
  | tree
  | binder
deriving DecidableEq, Repr

/-- When a scripted host asks for cancellation. -/
inductive CancelPoint where
  /-- Before it gives its tree. -/
  | tree
  /-- As soon as it is asked for its binder. -/
  | binderAsked
  /-- Before it gives its binder. -/
  | binder
  /-- When its binder is asked what a call binds to or for a group of members. -/
  | resolution
deriving DecidableEq, Repr

/-- Answers that are the same for every question. -/
structure FixedAnswers where
  type : Option TypeSymbol
  resolution : Resolution
  references : List String
deriving DecidableEq, Repr

/-- A binder with fixed answers knows no groups of members. -/
def FixedAnswers.binder {σ : Type} (f : FixedAnswers) : Binder σ where
  typeOf _ := .pure f.type
  resolve _ := .pure f.resolution
  memberGroup _ := .pure []
  references := .pure f.references

structure Script where
  scope : Scope
  fixed : Option FixedAnswers
  /-- A tree to give in the place of the tree of the document. -/
  otherTree : Option Snapshot
  failsTree : Bool
  failsBinder : Bool
  cancelAt : Option CancelPoint

namespace Script

variable {σ : Type}

/-- Asks for cancellation along with the answer to a question. -/
def cancelling {α : Type} (q : Query σ α) : Query σ α := fun host cancelled =>
  { q host cancelled with cancels := true }

def binder (s : Script) : Binder σ :=
  let b : Binder σ := match s.fixed with
    | some f => f.binder
    | none => s.scope.binder
  if s.cancelAt = some .resolution then
    { b with
      resolve := fun call => cancelling (b.resolve call)
      memberGroup := fun call => cancelling (b.memberGroup call) }
  else b

/-- The host of a script; its state is the record of what it was asked for. -/
def host (s : Script) : Host (List Asked) where
  tree d := fun asked cancelled =>
    let asked := asked ++ [.tree]
    if cancelled then ⟨.error .cancelled, asked, false⟩
    else if s.failsTree then ⟨.error (.host "no syntax tree"), asked, false⟩
    else ⟨.ok (.ofSnapshot (s.otherTree.getD d.snapshot)), asked, s.cancelAt = some .tree⟩
  binder _ := fun asked cancelled =>
    let asked := asked ++ [.binder]
    if cancelled then ⟨.error .cancelled, asked, false⟩
    else if s.cancelAt = some .binderAsked then ⟨.error .cancelled, asked, true⟩
    else if s.failsBinder then ⟨.error (.host "semantic model unavailable"), asked, false⟩
    else ⟨.ok s.binder, asked, s.cancelAt = some .binder⟩

end Script

end CallFill
