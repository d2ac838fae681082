import CallFill.Offer.Request

/-!
# Serving a request in stages

A request asks for the tree first.  Where the selection has a call of the right shape it asks for
the binder and about the receiver, and where the call can be filled it asks for the overloads and
offers an action.  The second stage and the third begin with a checkpoint, and the third ends with
one.
-/

namespace CallFill

variable {σ α β : Type}

/-- A computation goes on after a success and ends with a failure. -/
theorem run_bind (x : ExceptT Failure (StateM (Run σ)) α)
    (f : α → ExceptT Failure (StateM (Run σ)) β) (run : Run σ) :
    (x >>= f).run.run run = match x.run.run run with
      | (.ok a, run') => (f a).run.run run'
      | (.error e, run') => (.error e, run') := by
  rw [ExceptT.run_bind, StateT.run_bind]
  change (match x.run.run run with | (a, run') => _) = _
  obtain ⟨a | a, run'⟩ := x.run.run run <;> rfl

theorem run_bindState (x : StateM (Run σ) α) (f : α → StateM (Run σ) β) (run : Run σ) :
    (x >>= f).run run = (f (x.run run).1).run (x.run run).2 := rfl

theorem run_lift (x : StateM (Run σ) α) (run : Run σ) :
    (liftM x : ExceptT Failure (StateM (Run σ)) α).run.run run =
      (.ok (x.run run).1, (x.run run).2) := rfl

/-- The call of the right shape at a selection below a place. -/
def Offer.candidate? (p : Place) (s : Text.Span) : Option Candidate :=
  (p.find? s).bind fun n => (candidateAt n).toOption

namespace Offer

theorem candidate?_eq_some {p : Place} {s : Text.Span} {c : Candidate} :
    candidate? p s = some c ↔ ∃ n, p.find? s = some n ∧ candidateAt n = .ok c := by
  rw [candidate?, Option.bind_eq_some_iff]
  refine exists_congr fun n => and_congr_right fun _ => ?_
  cases candidateAt n <;> simp [Except.toOption]

theorem run_check (c : Candidate) (b : Binder σ) (s : Settings) (run : Run σ) :
    (c.check b s).run run = match (b.typeOf c.receiver).ask.run run with
      | (none, run') => (.error .unknownReceiver, run')
      | (some type, run') =>
        if !type.isInterface then (.error (.receiverNotInterface type.display), run')
        else match b.references.ask.run run' with
          | (names, run'') =>
            (if names.any (Text.mentions · s.library) then .ok ⟨c.call, c.list, type⟩
              else .error (.libraryNotReferenced s.library), run'') := by
  rw [Candidate.check, run_bindState]
  obtain ⟨_ | type, run'⟩ := (b.typeOf c.receiver).ask.run run
  · rfl
  · dsimp only
    cases type.isInterface with
    | false => rfl
    | true =>
      rw [if_neg (by simp), if_neg (by simp), run_bindState, referencesLibrary, run_bindState]
      obtain ⟨names, run''⟩ := b.references.ask.run run'
      simp only [StateT.run_pure]
      cases names.any (Text.mentions · s.library) <;> rfl

namespace Request

variable {s : Settings} {host : Host σ} {r : Request} {run : Run σ}

theorem run_checkpoint_bind (x : Unit → ExceptT Failure (StateM (Run σ)) α) (run : Run σ) :
    (checkpoint >>= x).run.run run =
      if run.cancelled then (.error .cancelled, run) else (x ()).run.run run := by
  have hcheckpoint : (checkpoint : ExceptT Failure (StateM (Run σ)) Unit).run.run run =
      (if run.cancelled then .error .cancelled else .ok (), run) := by
    rw [checkpoint, run_bind]
    change (if run.cancelled then throw .cancelled else pure () :
      ExceptT Failure (StateM (Run σ)) Unit).run.run run = _
    split <;> rfl
  rw [run_bind, hcheckpoint]
  cases run.cancelled <;> rfl

/-! ## The stages -/

/-- The document that the actions of a request rewrite. -/
def target (r : Request) (root : HostRoot) : Document :=
  if root.stamp = r.document.snapshot.stamp then r.document else r.document.next root.snapshot

/-- The third stage: an action for the overloads of a call. -/
def offerOverloads (s : Settings) (r : Request) (root : HostRoot) (binder : Binder σ)
    (call : Place) : ExceptT Failure (StateM (Run σ)) (Option Action) := do
  checkpoint
  let methods ← overloads binder call s.candidateSource
  let some action := Action.compose (r.target root) ⟨call, root.treeStamp⟩ methods s
    | return none
  checkpoint
  return some action

/-- The second stage: an action for a call of the right shape. -/
def offerCandidate (s : Settings) (host : Host σ) (r : Request) (root : HostRoot)
    (c : Candidate) : ExceptT Failure (StateM (Run σ)) (Option Action) := do
  checkpoint
  let binder ← ExceptT.mk (host.binder r.document).ask
  let .ok fillable ← c.check binder s | return none
  offerOverloads s r root binder fillable.call

theorem offer_eq (s : Settings) (host : Host σ) (r : Request) : offer s host r = (do
    let root ← ExceptT.mk (host.tree r.document).ask
    match candidate? root.place r.span with
    | none => return none
    | some c => offerCandidate s host r root c) := by
  unfold offer candidate?
  congr 1
  funext root
  cases root.place.find? r.span with
  | none => rfl
  | some n =>
    simp only [Option.bind_some]
    cases candidateAt n with
    | error e => rfl
    | ok c => rfl

theorem run_offerOverloads (root : HostRoot) (binder : Binder σ) (call : Place) (run : Run σ) :
    (offerOverloads s r root binder call).run.run run =
      if run.cancelled then (.error .cancelled, run)
      else match (overloads binder call s.candidateSource).run run with
        | (methods, run') =>
          match Action.compose (r.target root) ⟨call, root.treeStamp⟩ methods s with
          | none => (.ok none, run')
          | some a => if run'.cancelled then (.error .cancelled, run') else (.ok (some a), run') := by
  rw [offerOverloads, run_checkpoint_bind, run_bind, run_lift]
  obtain ⟨methods, run'⟩ := (overloads binder call s.candidateSource).run run
  dsimp only
  cases Action.compose (r.target root) ⟨call, root.treeStamp⟩ methods s with
  | none => rfl
  | some a =>
    dsimp only
    rw [run_checkpoint_bind]
    rfl

theorem run_offerCandidate (root : HostRoot) (c : Candidate) (run : Run σ) :
    (offerCandidate s host r root c).run.run run =
      if run.cancelled then (.error .cancelled, run)
      else match (host.binder r.document).ask.run run with
        | (.error e, run') => (.error e, run')
        | (.ok binder, run') =>
          match (c.check binder s).run run' with
          | (.error _, run'') => (.ok none, run'')
          | (.ok fillable, run'') =>
            (offerOverloads s r root binder fillable.call).run.run run'' := by
  rw [offerCandidate, run_checkpoint_bind, run_bind, ExceptT.run_mk]
  obtain ⟨e | binder, run'⟩ := (host.binder r.document).ask.run run
  · rfl
  · dsimp only
    rw [run_bind, run_lift]
    obtain ⟨e | fillable, run''⟩ := (c.check binder s).run run' <;> rfl

theorem run_offer (s : Settings) (host : Host σ) (r : Request) (run : Run σ) :
    (offer s host r).run.run run = match (host.tree r.document).ask.run run with
      | (.error e, run') => (.error e, run')
      | (.ok root, run') =>
        match candidate? root.place r.span with
        | none => (.ok none, run')
        | some c => (offerCandidate s host r root c).run.run run' := by
  rw [offer_eq, run_bind, ExceptT.run_mk]
  obtain ⟨e | root, run'⟩ := (host.tree r.document).ask.run run
  · rfl
  · dsimp only
    cases candidate? root.place r.span <;> rfl

theorem run_serve (s : Settings) (host : Host σ) (r : Request) (run : Run σ) :
    (serve s host r).run run = match (offer s host r).run.run run with
      | (.error e, run') => ((.error e, r), run')
      | (.ok none, run') => ((.ok (), r), run')
      | (.ok (some a), run') => ((.ok (), { r with actions := r.actions ++ [a] }), run') := by
  rw [serve, run_bindState]
  obtain ⟨e | _ | a, run'⟩ := (offer s host r).run.run run <;> rfl

/-! ## After an offer -/

/-- Where an action is offered, cancellation has not been asked for. -/
theorem not_cancelled_of_offerOverloads {root : HostRoot} {binder : Binder σ} {call : Place}
    {run' : Run σ} {a : Action}
    (h : (offerOverloads s r root binder call).run.run run = (.ok (some a), run')) :
    run'.cancelled = false := by
  rw [run_offerOverloads] at h
  split at h
  · cases h
  · split at h
    split at h
    · cases h
    · split at h
      · cases h
      next hrun =>
        cases h
        simpa using hrun

theorem not_cancelled_of_offer {run' : Run σ} {a : Action}
    (h : (offer s host r).run.run run = (.ok (some a), run')) : run'.cancelled = false := by
  rw [run_offer] at h
  split at h
  · cases h
  · split at h
    · cases h
    · rw [run_offerCandidate] at h
      split at h
      · cases h
      · split at h
        · cases h
        · split at h
          · cases h
          · exact not_cancelled_of_offerOverloads h

end Request

end Offer

end CallFill
