import CallFill.Document
import CallFill.Failure
import CallFill.Settings.Basic
import CallFill.Symbol.Method
import CallFill.Tree.Build

/-! # Rewrites

A rewrite fills the argument list of one call with wildcards for one overload. It holds the
document it was offered for and does its work only when it is applied. Rewrites for several
overloads are put before the user under one title, each with a label of its own. -/

namespace CallFill

/-! ## Wildcards -/

namespace Settings

/-- `Arg.Any<T>()` for the tree of a type. -/
def wildcard (s : Settings) (type : Tree) : Tree :=
  .invocation
    (.memberAccess (.identifierName s.matcherType)
      (.genericName s.matcherMethod (.typeArguments [type])))
    (.argumentList [])

/-- One wildcard per type name, in order. A name that is no type is left out. -/
def wildcards (s : Settings) (types : List String) : Tree :=
  .argumentList ((types.filterMap Grammar.namedType?).map fun t => .argument (s.wildcard t))

end Settings

/-! ## Labels of overloads

The label of an overload is the end of its display form, from the last dot before the
parameters, cut to a number of characters. -/

namespace Offer

/-- At most `limit` characters; a longer text ends in three dots where they fit. -/
def bound (cs : List Char) (limit : Nat) : List Char :=
  if cs.length ≤ limit then cs
  else if limit ≤ 3 then cs.take limit
  else cs.take (limit - 3) ++ ['.', '.', '.']

/-- The part from the last dot before the first parenthesis; all where there is none. -/
def memberPart (cs : List Char) : List Char :=
  let head := cs.takeWhile (· != '(')
  if cs.contains '(' && head.contains '.' then
    '.' :: Text.afterLast '.' head ++ cs.dropWhile (· != '(')
  else cs

def label (m : Method) (limit : Nat) : String :=
  String.ofList (bound (memberPart m.display.toList) limit)

/-! ## Rewrites -/

/-- A node together with the stamp of the tree it was found in. -/
structure Located where
  place : Place
  stamp : Nat
deriving DecidableEq

structure Rewrite where
  title : String
  document : Document
  call : Located
  parameterTypes : List String
  settings : Settings
deriving DecidableEq

namespace Rewrite

def ofMethod (title : String) (d : Document) (call : Located) (m : Method) (s : Settings) :
    Rewrite :=
  ⟨title, d, call, m.parameterTypes, s⟩

/-- The call with `list` in the place of its argument list and a line break at the end. -/
def fill (s : Settings) (call : Tree) (index : Nat) (list : Tree) : Tree :=
  (call.setChild index list).appendTrailing s.lineEnding.lineBreak

/-- The next version of the document, with the call filled; its tree gets the given stamp. -/
def apply (r : Rewrite) (cancelled : Bool) (stamp : Nat) : Except Failure Document :=
  if cancelled then .error .cancelled
  else if r.call.stamp ≠ r.document.snapshot.stamp then
    .error (.nodeNotFound r.call.place.focus.kind)
  else
    match r.call.place.argumentList? with
    | none => .error (.nodeNotFound (.node .argumentList))
    | some list =>
      let filled := fill r.settings r.call.place.focus list.index
        (r.settings.wildcards r.parameterTypes)
      .ok (r.document.next ⟨r.call.place.replace filled, stamp⟩)

end Rewrite

/-! ## Actions -/

/-- What is put before the user. -/
inductive Action where
  /-- One rewrite. -/
  | rewrite (r : Rewrite)
  /-- Alternatives to choose from. -/
  | group (title : String) (choices : List Rewrite)
deriving DecidableEq

namespace Action

def title : Action → String
  | .rewrite r => r.title
  | .group t _ => t

def rewrites : Action → List Rewrite
  | .rewrite r => [r]
  | .group _ rs => rs

/-- One rewrite for one overload, a group with labels for more, nothing for none. -/
def compose (d : Document) (call : Located) (overloads : List Method) (s : Settings) :
    Option Action :=
  match overloads with
  | [] => none
  | [m] => some (.rewrite (.ofMethod s.title d call m s))
  | ms => some (.group s.title (ms.map fun m => .ofMethod (label m s.labelLimit) d call m s))

end Action

end Offer

end CallFill
