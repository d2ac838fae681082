import CallFill.Proofs.JsonText
import CallFill.Wire.Settings
import CallFill.Wire.Summary
import CallFill.Wire.Symbols

/-!
# Values that come back from their text

What is written of a span, a type, a method, the settings or a summary is read back as it was: the
JSON value is a plain one, so it is read from its text, and every field is found under its name.
The lists that a summary leaves out come back as empty ones.  A summary takes two levels of the
depth to which values are read, one for its object and one for its list of choices, with each step
down to a choice.
-/

namespace CallFill

namespace Json

/-- What is written of a value is read back as the value. -/
def ReadsBack {α : Type} (write : α → Json) (read : Json → Option α) (v : α) : Prop :=
  (read? (write v).render).bind read = some v

theorem ReadsBack.of_plain {α : Type} {write : α → Json} {read : Json → Option α} {v : α}
    (hplain : Plain (write v)) (h : read (write v) = some v) : ReadsBack write read v := by
  rw [ReadsBack, read?_render hplain, Option.bind_some, h]

/-! ## Parts of a record -/

@[simp] theorem plain_text (s : String) : Plain (text s) := .string s

@[simp] theorem plain_texts (ss : List String) : Plain (texts ss) :=
  .array <| List.forall_mem_map.mpr fun s _ => plain_text s

@[simp] theorem text?_text (s : String) : (text s).text? = some s := rfl

@[simp] theorem tag?_text (s : String) : (text s).tag? = some s := rfl

@[simp] theorem natural?_natural (n : Nat) : (natural n).natural? = some n := rfl

@[simp] theorem array?_array (items : List Json) : (array items).array? = some items := rfl

/-- What each item gives is read back, so the list is. -/
theorem mapM_map_eq_some {α : Type} {write : α → Json} {read : Json → Option α} {vs : List α}
    (h : ∀ v ∈ vs, read (write v) = some v) : (vs.map write).mapM read = some vs := by
  induction vs with
  | nil => rfl
  | cons v vs ih =>
      obtain ⟨hv, hvs⟩ := List.forall_mem_cons.mp h
      simp [List.mapM_cons, hv, ih hvs]

@[simp] theorem texts?_texts (ss : List String) : (texts ss).texts? = some ss := by
  show (ss.map text).mapM text? = some ss
  exact mapM_map_eq_some fun s _ => text?_text s

end Json

open Json

/-! ## Spans and symbols -/

theorem Text.Span.plain_toJson {s : Text.Span} (hstart : s.start < UInt64.size)
    (hstop : s.stop < UInt64.size) : Plain s.toJson :=
  .object (by simp [Plain.natural hstart, Plain.natural hstop])

theorem Text.Span.ofJson?_toJson (s : Text.Span) : ofJson? s.toJson = some s := by
  simp [toJson, ofJson?, fields?, field?, record]

theorem TypeKind.plain_toJson (k : TypeKind) : Plain k.toJson := plain_text k.name

theorem TypeKind.ofJson?_toJson (k : TypeKind) : ofJson? k.toJson = some k := by
  simp [toJson, ofJson?]

theorem TypeSymbol.plain_toJson (t : TypeSymbol) : Plain t.toJson :=
  .object (by simp [TypeKind.plain_toJson])

theorem TypeSymbol.ofJson?_toJson (t : TypeSymbol) : ofJson? t.toJson = some t := by
  simp [toJson, ofJson?, fields?, field?, record, TypeKind.ofJson?_toJson]

theorem Parameter.plain_toJson (p : Parameter) : Plain p.toJson := .object (by simp)

theorem Parameter.ofJson?_toJson (p : Parameter) : ofJson? p.toJson = some p := by
  simp [toJson, ofJson?, fields?, field?, record]

theorem Method.plain_toJson (m : Method) : Plain m.toJson := by
  have hparameters : Plain (.array (m.parameters.map Parameter.toJson)) :=
    .array <| List.forall_mem_map.mpr fun p _ => p.plain_toJson
  exact .object (by simp [hparameters])

theorem Method.ofJson?_toJson (m : Method) : ofJson? m.toJson = some m := by
  have hparameters := mapM_map_eq_some fun p (_ : p ∈ m.parameters) => Parameter.ofJson?_toJson p
  simp [toJson, ofJson?, fields?, field?, record, hparameters]

/-! ## Settings -/

theorem Settings.plain_toJson {s : Settings} (h : s.labelLimit < UInt64.size) :
    Plain s.toJson :=
  .object (by simp [Plain.natural h, LineEnding.toJson, CandidateSource.toJson])

theorem Settings.ofJson?_toJson (s : Settings) : ofJson? s.toJson = some s := by
  simp [toJson, ofJson?, fields?, field?, record, fieldNames, orElse?, LineEnding.toJson,
    LineEnding.ofJson?, CandidateSource.toJson, CandidateSource.ofJson?]

/-! ## Summaries -/

namespace Offer.Summary

/-- What holds of a summary where it holds of its choices holds of all of them. -/
@[elab_as_elim]
theorem induction {P : Summary → Prop}
    (mk : ∀ title types children, (∀ c ∈ children, P c) → P (.mk title types children)) :
    (s : Summary) → P s
  | .mk title types children => mk title types children fun c _ => induction mk c

mutual

/-- How many steps down the deepest choice is. -/
def nesting : Summary → Nat
  | .mk _ _ children => nestingAll children

def nestingAll : List Summary → Nat
  | [] => 0
  | s :: ss => max (nesting s + 1) (nestingAll ss)

end

theorem nesting_lt_of_mem {c : Summary} {cs : List Summary} (h : c ∈ cs) :
    nesting c < nestingAll cs := by
  induction cs with
  | nil => cases h
  | cons s ss ih =>
      rw [nestingAll]
      rcases List.mem_cons.mp h with rfl | h
      · omega
      · have := ih h
        omega

theorem toJsonAll_eq_map (ss : List Summary) : toJsonAll ss = ss.map toJson := by
  induction ss with
  | nil => rfl
  | cons s ss ih => rw [toJsonAll, ih, List.map_cons]

theorem plain_listField {name : String} {items : List Json} (h : ∀ j ∈ items, Plain j) :
    ∀ f ∈ listField name items, Plain f.2 := by
  unfold listField
  split
  next => simp
  next => simpa using Plain.array h

theorem plain_toJson (s : Summary) : Plain s.toJson := by
  induction s using induction with
  | mk title types children ih =>
      rw [toJson, toJsonAll_eq_map]
      refine .object (List.forall_mem_append.mpr ⟨List.forall_mem_append.mpr ⟨?_, ?_⟩, ?_⟩)
      · simp
      · exact plain_listField (List.forall_mem_map.mpr fun t _ => plain_text t)
      · exact plain_listField (List.forall_mem_map.mpr ih)

/-- The field of a list, which is not there where the list is empty. -/
def listed (items : List Json) : Option Json := if items = [] then none else some (.array items)

theorem fields?_toJson (title : String) (types : List String) (children : List Summary) :
    (toJson (.mk title types children)).fields? ["title", "parameter_types", "children"] =
      some [some (.text title), listed (types.map text), listed (children.map toJson)] := by
  rw [toJson, toJsonAll_eq_map]
  generalize types.map text = ts, children.map toJson = cs
  cases ts with
  | nil => cases cs <;> simp [listed, listField, fields?, field?, record]
  | cons => cases cs <;> simp [listed, listField, fields?, field?, record]

example : (toJson (.mk "\"" [] [.mk "b" ["n"] []])).render =
    "\x7b\"title\":\"\\\"\",\"children\":" ++
      "[\x7b\"title\":\"b\",\"parameter_types\":[\"n\"]\x7d]\x7d" := by
  rfl

/-- A list that was left out is read as the empty one. -/
theorem orElse?_listed {α : Type} {read : Json → Option (List α)} {items : List Json}
    {vs : List α} (hnil : items = [] → vs = []) (h : read (.array items) = some vs) :
    orElse? [] read (listed items) = some vs := by
  unfold listed
  split
  next hitems => rw [orElse?, hnil hitems]
  next => exact h

/-- A summary is read where the levels left are enough for its deepest choice and the list of
types there. -/
theorem ofJsonWithin?_toJson (s : Summary) {levels : Nat} (h : 2 * s.nesting + 3 ≤ levels) :
    ofJsonWithin? levels s.toJson = some s := by
  induction s using induction generalizing levels with
  | mk title types children ih =>
      obtain ⟨levels, rfl⟩ : ∃ n, levels = n + 2 := ⟨levels - 2, by omega⟩
      have hlevels : levels ≠ 0 := by omega
      have hchildren : (children.map toJson).mapM (ofJsonWithin? levels) = some children := by
        refine mapM_map_eq_some fun c hc => ih c hc ?_
        have hlt := nesting_lt_of_mem hc
        rw [nesting] at h
        omega
      have htypes : orElse? [] (fun j => if levels = 0 then none else j.texts?)
          (listed (types.map text)) = some types := by
        refine orElse?_listed List.map_eq_nil_iff.mp ?_
        rw [if_neg hlevels]
        exact texts?_texts types
      have hitems : orElse? [] (fun j => if levels = 0 then none else j.array?)
          (listed (children.map toJson)) = some (children.map toJson) := by
        refine orElse?_listed id ?_
        rw [if_neg hlevels]
        rfl
      rw [ofJsonWithin?, fields?_toJson]
      simp only [Option.bind_eq_bind, Option.bind_some, text?_text, htypes, hitems, hchildren]
      rfl

end Offer.Summary

/-! ## From text to value -/

/-- Spans, types, methods, settings and summaries come back from the text that is written of them,
whatever their strings are, where their numbers have 64 bits and a summary is less than sixty steps
deep. -/
theorem read_written :
    (∀ s : Text.Span, s.start < UInt64.size → s.stop < UInt64.size →
      ReadsBack Text.Span.toJson Text.Span.ofJson? s) ∧
    (∀ k : TypeKind, ReadsBack TypeKind.toJson TypeKind.ofJson? k) ∧
    (∀ t : TypeSymbol, ReadsBack TypeSymbol.toJson TypeSymbol.ofJson? t) ∧
    (∀ m : Method, ReadsBack Method.toJson Method.ofJson? m) ∧
    (∀ s : Settings, s.labelLimit < UInt64.size → ReadsBack Settings.toJson Settings.ofJson? s) ∧
    (∀ s : Offer.Summary, s.nesting < 60 →
      ReadsBack Offer.Summary.toJson Offer.Summary.ofJson? s) := by
  refine ⟨?span, ?kind, ?type, ?method, ?settings, ?summary⟩
  case span =>
    intro s hstart hstop
    exact .of_plain (Text.Span.plain_toJson hstart hstop) s.ofJson?_toJson
  case kind => exact fun k => .of_plain k.plain_toJson k.ofJson?_toJson
  case type => exact fun t => .of_plain t.plain_toJson t.ofJson?_toJson
  case method => exact fun m => .of_plain m.plain_toJson m.ofJson?_toJson
  case settings =>
    intro s hlimit
    exact .of_plain (Settings.plain_toJson hlimit) s.ofJson?_toJson
  case summary =>
    intro s hnesting
    have hlevels : 2 * s.nesting + 3 ≤ Offer.Summary.depthLimit := by
      rw [Offer.Summary.depthLimit]
      omega
    exact .of_plain s.plain_toJson (Offer.Summary.ofJsonWithin?_toJson s hlevels)

/-- Bounds in the wrong order and as large as they get, texts with characters that are escaped, and
choices of choices with and without lists. -/
theorem read_written_escaped :
    ReadsBack Text.Span.toJson Text.Span.ofJson? ⟨UInt64.size - 1, 0⟩ ∧
    ReadsBack TypeKind.toJson TypeKind.ofJson? .typeParameter ∧
    ReadsBack TypeSymbol.toJson TypeSymbol.ofJson? ⟨"\x00\"\\", .error, ["\n", "", "é"]⟩ ∧
    ReadsBack Method.toJson Method.ofJson? ⟨"N.I\x1f", "\\u0041", [⟨"a", "\t/"⟩, ⟨"", ""⟩]⟩ ∧
    ReadsBack Settings.toJson Settings.ofJson?
      { library := "\x08\x0c", title := "\x7f\r", labelLimit := UInt64.size - 1, lineEnding := .lf } ∧
    ReadsBack Offer.Summary.toJson Offer.Summary.ofJson?
      (.mk "\"" [] [.mk "" ["int", "\x07"] [.mk "\\" [] []], .mk "b" [""] []]) := by
  obtain ⟨hspan, hkind, htype, hmethod, hsettings, hsummary⟩ := read_written
  exact ⟨hspan _ (by decide) (by decide), hkind _, htype _, hmethod _, hsettings _ (by decide),
    hsummary _ (by decide)⟩

end CallFill
