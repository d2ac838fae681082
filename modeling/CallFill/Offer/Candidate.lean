import CallFill.Host.Basic
import CallFill.Settings.Basic
import CallFill.Text.Basic

/-! # Calls that can be filled

A call qualifies by its shape if it calls a member with an empty list of arguments, and by
its meaning if the receiver is an interface and the mocking library is referenced. The two
halves are apart because the first needs no binder. -/

namespace CallFill.Offer

/-- Why a selection does not qualify. -/
inductive Refusal where
  | noArgumentList
  | argumentsPresent (count : Nat)
  | notInvocation
  | notMemberAccess
  | unknownReceiver
  | receiverNotInterface (type : String)
  | libraryNotReferenced (library : String)
deriving DecidableEq, Repr

def Refusal.message : Refusal → String
  | .noArgumentList => "selection is not inside an argument list"
  | .argumentsPresent n => "argument list already has " ++ toString n ++ " argument(s)"
  | .notInvocation => "argument list does not belong to an invocation"
  | .notMemberAccess => "invoked expression is not a member access"
  | .unknownReceiver => "receiver type could not be determined"
  | .receiverNotInterface t => "receiver type " ++ t ++ " is not an interface"
  | .libraryNotReferenced l => "project does not reference " ++ l

/-- A call of the right shape. -/
structure Candidate where
  call : Place
  list : Place
  /-- The expression whose member is called. -/
  receiver : Place
deriving DecidableEq

/-- A call that can be filled. -/
structure Fillable where
  call : Place
  list : Place
  receiverType : TypeSymbol
deriving DecidableEq

/-- The call whose empty argument list is the nearest one at or above a place. -/
def candidateAt (p : Place) : Except Refusal Candidate :=
  match p.ancestors.find? (·.isKind .argumentList) with
  | none => .error .noArgumentList
  | some list =>
    if list.arguments.length ≠ 0 then .error (.argumentsPresent list.arguments.length)
    else
      match list.owner? with
      | none => .error .notInvocation
      | some call =>
        match call.memberAccess?.bind (·.receiver?) with
        | none => .error .notMemberAccess
        | some receiver => .ok ⟨call, list, receiver⟩

variable {σ : Type}

/-- Whether the display name of some referenced library mentions `library`. -/
def referencesLibrary (b : Binder σ) (library : String) : StateM (Run σ) Bool := do
  let names ← b.references.ask
  return names.any (Text.mentions · library)

def Candidate.check (c : Candidate) (b : Binder σ) (s : Settings) :
    StateM (Run σ) (Except Refusal Fillable) := do
  match ← (b.typeOf c.receiver).ask with
  | none => return .error .unknownReceiver
  | some type =>
    if !type.isInterface then return .error (.receiverNotInterface type.display)
    else if ← referencesLibrary b s.library then return .ok ⟨c.call, c.list, type⟩
    else return .error (.libraryNotReferenced s.library)

/-- Both halves. -/
def fillableAt (p : Place) (b : Binder σ) (s : Settings) :
    StateM (Run σ) (Except Refusal Fillable) := do
  match candidateAt p with
  | .error e => return .error e
  | .ok c => c.check b s

/-- The methods that a call without arguments may have meant. -/
def overloads (b : Binder σ) (call : Place) (source : CandidateSource) :
    StateM (Run σ) (List Method) := do
  match source with
  | .overloadFailure => return (← (b.resolve call).ask).candidates
  | .memberGroup => (b.memberGroup call).ask

end CallFill.Offer
