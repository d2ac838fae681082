import CallFill.Json.Value
import CallFill.Settings.Basic

/-! # Settings as JSON

Every field may be left out. -/

namespace CallFill

def LineEnding.toJson (e : LineEnding) : Json := .text e.name

def LineEnding.ofJson? (j : Json) : Option LineEnding := j.tag?.bind ofName?

def CandidateSource.toJson (s : CandidateSource) : Json := .text s.name

def CandidateSource.ofJson? (j : Json) : Option CandidateSource := j.tag?.bind ofName?

namespace Settings

def fieldNames : List String :=
  ["library", "matcher_type", "matcher_method", "title", "label_max_len", "line_ending",
   "candidate_source"]

def toJson (s : Settings) : Json :=
  .record [("library", .text s.library), ("matcher_type", .text s.matcherType),
    ("matcher_method", .text s.matcherMethod), ("title", .text s.title),
    ("label_max_len", .natural s.labelLimit), ("line_ending", s.lineEnding.toJson),
    ("candidate_source", s.candidateSource.toJson)]

def ofJson? (j : Json) : Option Settings := do
  match ← j.fields? fieldNames with
  | [library, matcherType, matcherMethod, title, limit, ending, source] =>
    return {
      library := ← Json.orElse? default.library Json.text? library
      matcherType := ← Json.orElse? default.matcherType Json.text? matcherType
      matcherMethod := ← Json.orElse? default.matcherMethod Json.text? matcherMethod
      title := ← Json.orElse? default.title Json.text? title
      labelLimit := ← Json.orElse? default.labelLimit Json.natural? limit
      lineEnding := ← Json.orElse? default.lineEnding LineEnding.ofJson? ending
      candidateSource := ← Json.orElse? default.candidateSource CandidateSource.ofJson? source }
  | _ => none

end Settings

end CallFill
