import CallFill.Grammar.Source

/-! # Failures

What can go wrong other than that nothing is offered. -/

namespace CallFill

/-- Why settings cannot be had. -/
inductive SettingsError where
  | unreadable
  | malformed
deriving DecidableEq, Repr

def SettingsError.message : SettingsError → String
  | .unreadable => "failed to read config file"
  | .malformed => "failed to parse config"

inductive Failure where
  | cancelled
  /-- The host has no tree or no binder to give. -/
  | host (message : String)
  /-- A node of this kind is not where it should be. -/
  | nodeNotFound (kind : Kind)
  | unreadable (e : Grammar.SyntaxError)
  | settings (e : SettingsError)
deriving DecidableEq, Repr

namespace Failure

def message : Failure → String
  | .cancelled => "operation cancelled"
  | .host m => "host error: " ++ m
  | .nodeNotFound k => "node not found in tree: " ++ k.name
  | .unreadable e => e.message
  | .settings e => "config error: " ++ e.message

def isCancelled : Failure → Bool
  | .cancelled => true
  | _ => false

end Failure

end CallFill
