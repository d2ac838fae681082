/-! # Settings

What the project calls its mocking library and its wildcard, how offers are titled and
labelled, and how a filled call ends its line. -/

namespace CallFill

/-- The line break appended after a filled call. -/
inductive LineEnding where
  | crlf
  | lf
deriving DecidableEq, Repr

namespace LineEnding

def lineBreak : LineEnding → String
  | .crlf => "\r\n"
  | .lf => "\n"

def name : LineEnding → String
  | .crlf => "crlf"
  | .lf => "lf"

def all : List LineEnding := [.crlf, .lf]

def ofName? (n : String) : Option LineEnding := all.find? (·.name == n)

@[simp] theorem ofName?_name (e : LineEnding) : ofName? e.name = some e := by
  cases e <;> decide

end LineEnding

/-- Where the methods that a call may have meant are taken from. -/
inductive CandidateSource where
  /-- What a failed overload resolution considered. -/
  | overloadFailure
  /-- Every method of the name on the type of the receiver. -/
  | memberGroup
deriving DecidableEq, Repr

namespace CandidateSource

def name : CandidateSource → String
  | .overloadFailure => "overload_failure"
  | .memberGroup => "member_group"

def all : List CandidateSource := [.overloadFailure, .memberGroup]

def ofName? (n : String) : Option CandidateSource := all.find? (·.name == n)

@[simp] theorem ofName?_name (s : CandidateSource) : ofName? s.name = some s := by
  cases s <;> decide

end CandidateSource

structure Settings where
  /-- What the display name of a referenced library must contain. -/
  library : String := "NSubstitute"
  /-- The type that holds the wildcard, `Arg` in `Arg.Any<T>()`. -/
  matcherType : String := "Arg"
  /-- The generic wildcard method, `Any` in `Arg.Any<T>()`. -/
  matcherMethod : String := "Any"
  /-- The title of a single offer and of a group of them. -/
  title : String := "Add wildcard-match arguments"
  /-- The most characters that a label may have. -/
  labelLimit : Nat := 50
  lineEnding : LineEnding := .crlf
  candidateSource : CandidateSource := .overloadFailure
deriving DecidableEq, Repr

namespace Settings

def default : Settings := {}

end Settings

end CallFill
