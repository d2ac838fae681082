import CallFill.Failure
import CallFill.Settings.Basic
import CallFill.Toml.Reader

/-! # Settings in a file

Settings are written in TOML. Every entry may be left out, and entries with other names do
not matter. -/

namespace CallFill.Settings

open Toml

def string? : Toml → Option String
  | .string s => some s
  | _ => none

/-- An integer that is not negative. -/
def natural? : Toml → Option Nat
  | .integer n => if 0 ≤ n then some n.toNat else none
  | _ => none

def isHollow : Toml → Bool
  | .array items => items.isEmpty
  | .table _ es => es.isEmpty
  | _ => false

/-- A name that stands for itself: the name alone, or a table that gives it an empty table or
an empty array. -/
def tag? : Toml → Option String
  | .string s => some s
  | .table _ [(name, value)] => if isHollow value then some name else none
  | _ => none

/-- A value that may be left out, but not be wrong. -/
def entry? {α : Type} (es : Entries) (key : String) (missing : α) (read : Toml → Option α) :
    Option α :=
  match es.lookup key with
  | none => some missing
  | some v => read v

def ofEntries? (es : Entries) : Option Settings := do
  return {
    library := ← entry? es "library" default.library string?
    matcherType := ← entry? es "matcher_type" default.matcherType string?
    matcherMethod := ← entry? es "matcher_method" default.matcherMethod string?
    title := ← entry? es "title" default.title string?
    labelLimit := ← entry? es "label_max_len" default.labelLimit natural?
    lineEnding := ← entry? es "line_ending" default.lineEnding
      fun v => (tag? v).bind LineEnding.ofName?
    candidateSource := ← entry? es "candidate_source" default.candidateSource
      fun v => (tag? v).bind CandidateSource.ofName? }

def ofToml (text : String) : Except Failure Settings :=
  match (Toml.read? text).bind ofEntries? with
  | some s => .ok s
  | none => .error (.settings .malformed)

/-- What is found where a settings file may be. -/
inductive Stored where
  | missing
  /-- A directory. -/
  | directory
  | file (content : ByteArray)

/-- The settings in a file. -/
def load : Stored → Except Failure Settings
  | .file content =>
    match String.fromUTF8? content with
    | some text => ofToml text
    | none => .error (.settings .unreadable)
  | _ => .error (.settings .unreadable)

/-- The settings of a project, which need not have a settings file. -/
def loadProject : Stored → Except Failure Settings
  | .missing => .ok default
  | stored => load stored

end CallFill.Settings
