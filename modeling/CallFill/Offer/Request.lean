import CallFill.Offer.Candidate
import CallFill.Offer.Rewrite
import CallFill.Text.Position
import CallFill.Tree.Selection

/-! # Requests

A request is a selection in a document. Serving it goes from question to question, stops
where nothing can be offered, and fails where the host fails or cancellation has been asked
for; only a request that comes to its end registers an action. -/

namespace CallFill.Offer

open Text

structure Request where
  document : Document
  span : Span
  /-- The actions registered so far. -/
  actions : List Action
deriving DecidableEq

namespace Request

def ofSpan (d : Document) (s : Span) : Request := ⟨d, s, []⟩

/-- The request of a caret at a line and a column. -/
def ofPosition (d : Document) (p : Position) : Request := ofSpan d (.caret (p.toOffset d.text))

variable {σ : Type}

/-- Fails if cancellation has been asked for. -/
def checkpoint : ExceptT Failure (StateM (Run σ)) Unit := do
  if (← get).cancelled then throw .cancelled

/-- What a host has to offer for a request. -/
def offer (s : Settings) (host : Host σ) (r : Request) :
    ExceptT Failure (StateM (Run σ)) (Option Action) := do
  let root ← ExceptT.mk (host.tree r.document).ask
  let some found := root.place.find? r.span | return none
  let .ok candidate := candidateAt found | return none
  checkpoint
  let binder ← ExceptT.mk (host.binder r.document).ask
  let .ok fillable ← candidate.check binder s | return none
  checkpoint
  let methods ← overloads binder fillable.call s.candidateSource
  -- The actions rewrite the tree that the call was found in.
  let document :=
    if root.stamp = r.document.snapshot.stamp then r.document else r.document.next root.snapshot
  let some action := Action.compose document ⟨fillable.call, root.treeStamp⟩ methods s
    | return none
  checkpoint
  return some action

/-- Serves a request and registers what is offered. -/
def serve (s : Settings) (host : Host σ) (r : Request) :
    StateM (Run σ) (Except Failure Unit × Request) := do
  match ← (offer s host r).run with
  | .error e => return (.error e, r)
  | .ok none => return (.ok (), r)
  | .ok (some a) => return (.ok (), { r with actions := r.actions ++ [a] })

end Request

end CallFill.Offer
