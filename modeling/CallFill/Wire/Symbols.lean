import CallFill.Json.Value
import CallFill.Symbol.Method
import CallFill.Symbol.Type
import CallFill.Text.Span

/-! # Spans and symbols as JSON -/

namespace CallFill

namespace Text.Span

def toJson (s : Span) : Json := .record [("start", .natural s.start), ("end", .natural s.stop)]

def ofJson? (j : Json) : Option Span := do
  match ← j.fields? ["start", "end"] with
  | [start, stop] => return ⟨← (← start).natural?, ← (← stop).natural?⟩
  | _ => none

end Text.Span

namespace TypeKind

def toJson (k : TypeKind) : Json := .text k.name

def ofJson? (j : Json) : Option TypeKind := j.tag?.bind ofName?

end TypeKind

namespace TypeSymbol

def toJson (t : TypeSymbol) : Json :=
  .record [("name", .text t.name), ("kind", t.kind.toJson),
    ("containing_namespace", .texts t.namespaces)]

def ofJson? (j : Json) : Option TypeSymbol := do
  match ← j.fields? ["name", "kind", "containing_namespace"] with
  | [name, kind, namespaces] =>
    return ⟨← (← name).text?, ← TypeKind.ofJson? (← kind), ← (← namespaces).texts?⟩
  | _ => none

end TypeSymbol

namespace Parameter

def toJson (p : Parameter) : Json :=
  .record [("name", .text p.name), ("type_display", .text p.type)]

def ofJson? (j : Json) : Option Parameter := do
  match ← j.fields? ["name", "type_display"] with
  | [name, type] => return ⟨← (← name).text?, ← (← type).text?⟩
  | _ => none

end Parameter

namespace Method

def toJson (m : Method) : Json :=
  .record [("containing_type", .text m.declaring), ("name", .text m.name),
    ("parameters", .array (m.parameters.map Parameter.toJson))]

def ofJson? (j : Json) : Option Method := do
  match ← j.fields? ["containing_type", "name", "parameters"] with
  | [declaring, name, parameters] =>
    let items ← (← parameters).array?
    return ⟨← (← declaring).text?, ← (← name).text?, ← items.mapM Parameter.ofJson?⟩
  | _ => none

end Method

end CallFill
