import CallFill.Proofs.Serving

/-!
# Recorded hosts

A host can keep a record of what it is asked, and whether cancellation had been asked for at the
time, next to its own state.  The record is made by the host alone, so a request goes the same way
with it as without it, and what it says holds of every host.
-/

namespace CallFill

/-- A question to a host or to its binder.  For the tree the answer is recorded as well. -/
inductive Question where
  | tree (answer : Except Failure HostRoot)
  | binder
  | typeOf (e : Place)
  | references
  | resolve (call : Place)
  | memberGroup (call : Place)

namespace Question

def isBinder : Question → Bool
  | .binder => true
  | _ => false

/-- Whether the question is for the methods that a call may have meant. -/
def isOverloads : Question → Bool
  | .resolve _ | .memberGroup _ => true
  | _ => false

@[simp] theorem isBinder_tree (answer : Except Failure HostRoot) :
    (tree answer).isBinder = false := rfl

end Question

/-- A question and whether cancellation had been asked for when it was put. -/
structure Entry where
  question : Question
  cancelled : Bool

variable {σ α β : Type}

/-- A question that is recorded when it is put. -/
def Query.recorded (q : Query σ α) (question : α → Question) (f : α → β) :
    Query (σ × List Entry) β := fun host cancelled =>
  let reply := q host.1 cancelled
  ⟨f reply.answer, (reply.host, host.2 ++ [⟨question reply.answer, cancelled⟩]), reply.cancels⟩

def Binder.recorded (b : Binder σ) : Binder (σ × List Entry) where
  typeOf e := (b.typeOf e).recorded (fun _ => .typeOf e) id
  resolve call := (b.resolve call).recorded (fun _ => .resolve call) id
  memberGroup call := (b.memberGroup call).recorded (fun _ => .memberGroup call) id
  references := b.references.recorded (fun _ => .references) id

def Host.recorded (h : Host σ) : Host (σ × List Entry) where
  tree d := (h.tree d).recorded .tree id
  binder d := (h.binder d).recorded (fun _ => .binder) (·.map Binder.recorded)

@[simp] theorem Binder.typeOf_recorded (b : Binder σ) (e : Place) :
    b.recorded.typeOf e = (b.typeOf e).recorded (fun _ => .typeOf e) id := rfl

@[simp] theorem Binder.references_recorded (b : Binder σ) :
    b.recorded.references = b.references.recorded (fun _ => .references) id := rfl

@[simp] theorem Host.tree_recorded (h : Host σ) (d : Document) :
    h.recorded.tree d = (h.tree d).recorded .tree id := rfl

@[simp] theorem Host.binder_recorded (h : Host σ) (d : Document) :
    h.recorded.binder d = (h.binder d).recorded (fun _ => .binder) (·.map Binder.recorded) := rfl

/-- A run whose host has a record. -/
def Run.record (run : Run σ) (log : List Entry) : Run (σ × List Entry) :=
  ⟨(run.host, log), run.cancelled⟩

@[simp] theorem Run.cancelled_record (run : Run σ) (log : List Entry) :
    (run.record log).cancelled = run.cancelled := rfl

/-- What a computation comes to, with a record. -/
def withRecord (out : α × Run σ) (log : List Entry) : α × Run (σ × List Entry) :=
  (out.1, out.2.record log)

/-- A recorded question is answered as it is without the record, and adds its entry. -/
theorem Query.run_recorded (q : Query σ α) (question : α → Question) (f : α → β) (run : Run σ)
    (log : List Entry) : (q.recorded question f).ask.run (run.record log) =
      (f (q.ask.run run).1, (q.ask.run run).2.record
        (log ++ [⟨question (q.ask.run run).1, run.cancelled⟩])) := rfl

namespace Offer

/-- Questions about the receiver and the references are not about the overloads. -/
theorem run_check_recorded (c : Candidate) (b : Binder σ) (s : Settings) (run : Run σ)
    (log : List Entry) : ∃ new, (c.check b.recorded s).run (run.record log) =
      withRecord ((c.check b s).run run) (log ++ new) ∧
        ∀ e ∈ new, e.question.isBinder = false ∧ e.question.isOverloads = false := by
  rw [run_check, run_check, Binder.typeOf_recorded, Query.run_recorded]
  have htype : (Question.typeOf c.receiver).isBinder = false ∧
      (Question.typeOf c.receiver).isOverloads = false := ⟨rfl, rfl⟩
  obtain ⟨_ | type, run'⟩ := (b.typeOf c.receiver).ask.run run
  · exact ⟨[⟨.typeOf c.receiver, run.cancelled⟩], rfl, by simpa using htype⟩
  · dsimp only [id]
    split
    · exact ⟨[⟨.typeOf c.receiver, run.cancelled⟩], rfl, by simpa using htype⟩
    · rw [Binder.references_recorded, Query.run_recorded]
      obtain ⟨names, run''⟩ := b.references.ask.run run'
      refine ⟨[⟨.typeOf c.receiver, run.cancelled⟩, ⟨.references, run'.cancelled⟩], ?_, ?_⟩
      · simp [withRecord]
      · simpa using ⟨htype, rfl, rfl⟩

/-- The overloads of a call are asked for once. -/
theorem run_overloads_recorded (b : Binder σ) (call : Place) (source : CandidateSource)
    (run : Run σ) (log : List Entry) : ∃ q : Question, q.isBinder = false ∧
      (overloads b.recorded call source).run (run.record log) =
        withRecord ((overloads b call source).run run) (log ++ [⟨q, run.cancelled⟩]) := by
  cases source with
  | overloadFailure => exact ⟨.resolve call, rfl, rfl⟩
  | memberGroup => exact ⟨.memberGroup call, rfl, rfl⟩

namespace Request

/-- The overloads are asked for while nobody has asked for cancellation. -/
theorem run_offerOverloads_recorded (s : Settings) (r : Request) (root : HostRoot) (b : Binder σ)
    (call : Place) (run : Run σ) (log : List Entry) :
    ∃ new, (offerOverloads s r root b.recorded call).run.run (run.record log) =
      withRecord ((offerOverloads s r root b call).run.run run) (log ++ new) ∧
        ∀ e ∈ new, e.question.isBinder = false ∧ e.cancelled = false := by
  rw [run_offerOverloads, run_offerOverloads, Run.cancelled_record]
  cases hrun : run.cancelled with
  | true => exact ⟨[], by simp [withRecord], by simp⟩
  | false =>
    obtain ⟨q, hq, hrecorded⟩ := run_overloads_recorded b call s.candidateSource run log
    refine ⟨[⟨q, false⟩], ?_, by simp [hq]⟩
    rw [hrecorded, hrun]
    obtain ⟨methods, host', cancelled⟩ := (overloads b call s.candidateSource).run run
    simp only [withRecord, Bool.false_eq_true, if_false]
    cases Action.compose (r.target root) ⟨call, root.treeStamp⟩ methods s with
    | none => rfl
    | some a => cases cancelled <;> rfl

/-- The binder is asked for once and while nobody has asked for cancellation. -/
theorem run_offerCandidate_recorded (s : Settings) (host : Host σ) (r : Request)
    (root : HostRoot) (c : Candidate) (run : Run σ) (log : List Entry) :
    ∃ new, (offerCandidate s host.recorded r root c).run.run (run.record log) =
      withRecord ((offerCandidate s host r root c).run.run run) (log ++ new) ∧
        (new = [] ∨ ∃ later, new = ⟨.binder, false⟩ :: later ∧ ∀ e ∈ later,
          e.question.isBinder = false ∧ (e.question.isOverloads = true → e.cancelled = false)) := by
  rw [run_offerCandidate, run_offerCandidate, Run.cancelled_record]
  cases hrun : run.cancelled with
  | true => exact ⟨[], by simp [withRecord], .inl rfl⟩
  | false =>
    -- the checkpoint has passed, so the entry for the binder says that nobody has cancelled
    rw [Host.binder_recorded, Query.run_recorded, hrun]
    obtain ⟨e | b, run'⟩ := (host.binder r.document).ask.run run
    · exact ⟨[⟨.binder, false⟩], rfl, .inr ⟨[], rfl, by simp⟩⟩
    · simp only [Bool.false_eq_true, if_false, Except.map]
      obtain ⟨about, hcheck, habout⟩ :=
        run_check_recorded c b s run' (log ++ [⟨.binder, false⟩])
      rw [hcheck, withRecord]
      obtain ⟨e | fillable, run''⟩ := (c.check b s).run run'
      · refine ⟨⟨.binder, false⟩ :: about, by simp [withRecord], .inr ⟨about, rfl, fun e he => ?_⟩⟩
        exact ⟨(habout e he).1, by simp [(habout e he).2]⟩
      · dsimp only
        obtain ⟨late, hlate, hq⟩ := run_offerOverloads_recorded s r root b fillable.call run''
          (log ++ [⟨.binder, false⟩] ++ about)
        rw [hlate]
        refine ⟨⟨.binder, false⟩ :: (about ++ late), by simp,
          .inr ⟨about ++ late, rfl, fun e he => ?_⟩⟩
        rcases List.mem_append.mp he with he | he
        · exact ⟨(habout e he).1, by simp [(habout e he).2]⟩
        · exact ⟨(hq e he).1, fun _ => (hq e he).2⟩

/-- What a host is asked in the course of a request.  The binder is asked for once at most, after
the tree was had and a call of the right shape found in it, and neither it nor overloads are asked
for when cancellation has been. -/
structure Orderly (r : Request) (entries : List Entry) : Prop where
  binder_once : entries.countP (·.question.isBinder) ≤ 1
  binder_after : ∀ before e after, entries = before ++ e :: after → e.question = .binder →
    e.cancelled = false ∧ ∃ cancelled root n c, ⟨.tree (.ok root), cancelled⟩ ∈ before ∧
      root.place.find? r.span = some n ∧ candidateAt n = .ok c
  overloads_before : ∀ e ∈ entries, e.question.isOverloads = true → e.cancelled = false

theorem orderly_tree (r : Request) (answer : Except Failure HostRoot) (cancelled : Bool) :
    Orderly r [⟨.tree answer, cancelled⟩] where
  binder_once := by simp
  binder_after before e after h he := by
    have hmem : e ∈ [(⟨.tree answer, cancelled⟩ : Entry)] := by simp [h]
    obtain rfl := List.mem_singleton.mp hmem
    cases he
  overloads_before := by simp [Question.isOverloads]

theorem orderly_binder {r : Request} {root : HostRoot} {c : Candidate}
    (hc : candidate? root.place r.span = some c) (cancelled : Bool) {later : List Entry}
    (hlater : ∀ e ∈ later, e.question.isBinder = false ∧
      (e.question.isOverloads = true → e.cancelled = false)) :
    Orderly r (⟨.tree (.ok root), cancelled⟩ :: ⟨.binder, false⟩ :: later) where
  binder_once := by
    have hnone : later.countP (·.question.isBinder) = 0 :=
      List.countP_eq_zero.mpr fun e he => by simp [(hlater e he).1]
    refine Nat.le_of_eq ?_
    rw [List.countP_cons_of_neg (by simp), List.countP_cons_of_pos rfl, hnone]
  binder_after before e after h he := by
    obtain ⟨n, hfind, hn⟩ := candidate?_eq_some.mp hc
    -- the binder is the second entry and no other
    match before, h with
    | [], h => cases h; cases he
    | [_], h => cases h; exact ⟨rfl, cancelled, root, n, c, by simp, hfind, hn⟩
    | _ :: _ :: before, h =>
      obtain ⟨-, -, rfl⟩ : _ ∧ _ ∧ later = before ++ e :: after := by simpa using h
      have hno := (hlater e (by simp)).1
      rw [he] at hno
      cases hno
  overloads_before := by
    simp only [List.mem_cons, forall_eq_or_imp]
    exact ⟨nofun, nofun, fun e he => (hlater e he).2⟩

theorem run_offer_recorded (s : Settings) (host : Host σ) (r : Request) (run : Run σ) :
    ∃ entries, (offer s host.recorded r).run.run (run.record []) =
      withRecord ((offer s host r).run.run run) entries ∧ Orderly r entries := by
  rw [run_offer, run_offer, Host.tree_recorded, Query.run_recorded]
  obtain ⟨e | root, run'⟩ := (host.tree r.document).ask.run run
  · exact ⟨_, rfl, orderly_tree r _ run.cancelled⟩
  · dsimp only [id]
    cases hc : candidate? root.place r.span with
    | none => exact ⟨_, rfl, orderly_tree r _ run.cancelled⟩
    | some c =>
      obtain ⟨new, hnew, rfl | ⟨later, rfl, hlater⟩⟩ :=
        run_offerCandidate_recorded s host r root c run' [⟨.tree (.ok root), run.cancelled⟩]
      · exact ⟨_, hnew, orderly_tree r _ _⟩
      · exact ⟨_, hnew, orderly_binder hc _ hlater⟩

/-- Serving a request registers one action at most, and none when it fails or when cancellation
has been asked for by its end.  What the host was asked on the way is in order. -/
theorem serve_orderly (s : Settings) (host : Host σ) (r : Request) (run : Run σ) :
    let out := (serve s host r).run run
    (out.1.2 = r ∨ ∃ a, out.1.2 = { r with actions := r.actions ++ [a] }) ∧
    (∀ e, out.1.1 = .error e → out.1.2 = r) ∧
    (out.2.cancelled = true → out.1.2 = r) ∧
    ∃ entries, (serve s host.recorded r).run (run.record []) = withRecord out entries ∧
      Orderly r entries := by
  obtain ⟨entries, hentries, horder⟩ := run_offer_recorded s host r run
  rw [run_serve, run_serve, hentries]
  cases hoffer : (offer s host r).run.run run with
  | mk answer run' =>
    match answer, hoffer with
    | .error e, _ => exact ⟨.inl rfl, fun _ _ => rfl, fun _ => rfl, entries, rfl, horder⟩
    | .ok none, _ => exact ⟨.inl rfl, nofun, fun _ => rfl, entries, rfl, horder⟩
    | .ok (some a), hoffer =>
      have hrun := not_cancelled_of_offer hoffer
      exact ⟨.inr ⟨a, rfl⟩, nofun, fun h => by simp [hrun] at h, entries, rfl, horder⟩

end Request

end Offer

end CallFill
