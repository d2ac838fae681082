import CallFill.Json.Value
import CallFill.Offer.Summary

/-! # Summaries as JSON

Lists are left out where they are empty. A summary is read to a limited depth: each object
and each array on the way down takes one level of those left, and the last is not used. -/

namespace CallFill.Offer.Summary

/-- A field with a list, unless it is empty. -/
def listField (name : String) (items : List Json) : List (String × Json) :=
  if items.isEmpty then [] else [(name, .array items)]

mutual

def toJson : Summary → Json
  | .mk title types children =>
    .record ([("title", .text title)] ++ listField "parameter_types" (types.map .text) ++
      listField "children" (toJsonAll children))

def toJsonAll : List Summary → List Json
  | [] => []
  | s :: ss => toJson s :: toJsonAll ss

end

/-- The depth to which values are read. -/
def depthLimit : Nat := 128

/-- Reads a summary with `levels` levels left. -/
def ofJsonWithin? : (levels : Nat) → Json → Option Summary
  | 0, _ => none
  | 1, _ => none
  | levels + 2, j => do
    match ← j.fields? ["title", "parameter_types", "children"] with
    | [title, types, children] =>
      let title ← (← title).text?
      let types ← Json.orElse? [] (fun j => if levels = 0 then none else j.texts?) types
      let items ← Json.orElse? [] (fun j => if levels = 0 then none else j.array?) children
      return .mk title types (← items.mapM (ofJsonWithin? levels))
    | _ => none

def ofJson? (j : Json) : Option Summary := ofJsonWithin? depthLimit j

end CallFill.Offer.Summary
