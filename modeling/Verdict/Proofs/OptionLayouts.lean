import Verdict.Options.Json
import Verdict.Proofs.Layouts
import Verdict.Proofs.StructureFields

namespace Verdict

open Json (IsStructure)
open Json.Document (HasField)

/-- The document is the value, or there is none and the value is the default. -/
def OrOmitted {α : Type} (default : α) (isDocument : α → Json.Document → Prop) (value : α) :
    Option Json.Document → Prop
  | none => value = default
  | some document => isDocument value document

theorem fieldOr_of_orOmitted {α : Type} {default value : α}
    {isDocument : α → Json.Document → Prop} {ofDocument? : Json.Document → Option α}
    {field : Option Json.Document} (h : OrOmitted default isDocument value field)
    (hread : ∀ document, isDocument value document → ofDocument? document = some value) :
    fieldOr default ofDocument? field = some value := by
  cases field with
  | none => exact congrArg some h.symm
  | some document => exact hread document h

variable {document : Json.Document} {text : String}

/-- The name in any spelling, alone or as the only key of an object with null under it. -/
inductive Validation.IsDocument (validation : Validation) : Json.Document → Prop where
  | name {quoted : Json.Quoted} (h : quoted.StandsFor validation.name.toList) :
      IsDocument validation (.string quoted)
  | key {key : Json.Quoted} (h : key.StandsFor validation.name.toList) :
      IsDocument validation (.object [(key, .null)])

theorem Validation.ofName?_name (validation : Validation) :
    ofName? validation.name = some validation := by
  cases validation <;> rfl

theorem Validation.ofDocument?_of_isDocument {validation : Validation}
    (h : validation.IsDocument document) : ofDocument? document = some validation := by
  cases h with
  | name h =>
    rw [ofDocument?, Json.Quoted.content?_of_standsFor h]
    exact ofName?_name validation
  | key h =>
    rw [ofDocument?, Json.Quoted.content?_of_standsFor h]
    exact ofName?_name validation

/-- The bound on the depth as an integer. -/
def IsMaxDepth (maxDepth : UInt64) (document : Json.Document) : Prop :=
  document = .ofInt maxDepth.toNat

theorem maxDepthOfDocument?_of_isMaxDepth {maxDepth : UInt64} (h : IsMaxDepth maxDepth document) :
    maxDepthOfDocument? document = some maxDepth := by
  subst h
  have hnatural : (Json.Number.ofInt maxDepth.toNat).natural? = some maxDepth.toNat := by
    rw [Json.Number.natural?, Json.Number.integer?_ofInt]
    rfl
  rw [Json.Document.ofInt, maxDepthOfDocument?, hnatural, Option.bind_some,
    if_pos maxDepth.toNat_lt, UInt64.ofNat_toNat]

/-- Whether evaluation may stop early, as a truth value. -/
def IsShortCircuit (mode : EvaluationMode) (document : Json.Document) : Prop :=
  document = .bool (mode == .shortCircuit)

theorem shortCircuitOfDocument?_of_isShortCircuit {mode : EvaluationMode}
    (h : IsShortCircuit mode document) : shortCircuitOfDocument? document = some mode := by
  subst h
  cases mode <;> rfl

def ParseOptions.IsDocument (options : ParseOptions) (document : Json.Document) : Prop :=
  ∃ validation maxDepth : Option Json.Document,
    OrOmitted .deferred Validation.IsDocument options.validation validation ∧
      OrOmitted 256 IsMaxDepth options.maxDepth maxDepth ∧
      IsStructure [("validation", validation), ("max_depth", maxDepth)] document

def EvaluationMode.IsDocument (mode : EvaluationMode) (document : Json.Document) : Prop :=
  ∃ flag : Option Json.Document, OrOmitted .shortCircuit IsShortCircuit mode flag ∧
    IsStructure [("short_circuit", flag)] document

def EngineConfig.IsDocument (config : EngineConfig) (document : Json.Document) : Prop :=
  ∃ parse evaluation : Option Json.Document,
    OrOmitted ⟨.deferred, 256⟩ ParseOptions.IsDocument config.parse parse ∧
      OrOmitted .shortCircuit EvaluationMode.IsDocument config.evaluation evaluation ∧
      IsStructure [("parse", parse), ("evaluation", evaluation)] document

theorem ParseOptions.ofDocument?_eq_some_iff {options : ParseOptions} :
    ofDocument? document = some options ↔ ∃ validation maxDepth,
      document.fields? ["validation", "max_depth"] = some [validation, maxDepth] ∧
        fieldOr .deferred Validation.ofDocument? validation = some options.validation ∧
        fieldOr 256 maxDepthOfDocument? maxDepth = some options.maxDepth := by
  rw [ofDocument?, Option.bind_eq_bind, Option.bind_eq_some_iff]
  constructor
  · rintro ⟨values, hfields, h⟩
    split at h
    · rename_i validation maxDepth
      obtain ⟨_, hvalidation, h⟩ := Option.bind_eq_some_iff.mp h
      obtain ⟨_, hmaxDepth, h⟩ := Option.bind_eq_some_iff.mp h
      cases h
      exact ⟨validation, maxDepth, hfields, hvalidation, hmaxDepth⟩
    · cases h
  · rintro ⟨validation, maxDepth, hfields, hvalidation, hmaxDepth⟩
    exact ⟨_, hfields, Option.bind_eq_some_iff.mpr ⟨_, hvalidation,
      Option.bind_eq_some_iff.mpr ⟨_, hmaxDepth, rfl⟩⟩⟩

theorem EvaluationMode.ofDocument?_eq_some_iff {mode : EvaluationMode} :
    ofDocument? document = some mode ↔ ∃ flag, document.fields? ["short_circuit"] = some [flag] ∧
      fieldOr .shortCircuit shortCircuitOfDocument? flag = some mode := by
  rw [ofDocument?, Option.bind_eq_bind, Option.bind_eq_some_iff]
  constructor
  · rintro ⟨values, hfields, h⟩
    split at h
    · exact ⟨_, hfields, h⟩
    · cases h
  · rintro ⟨flag, hfields, hflag⟩
    exact ⟨_, hfields, hflag⟩

theorem EngineConfig.ofDocument?_eq_some_iff {config : EngineConfig} :
    ofDocument? document = some config ↔ ∃ parse evaluation,
      document.fields? ["parse", "evaluation"] = some [parse, evaluation] ∧
        fieldOr ⟨.deferred, 256⟩ ParseOptions.ofDocument? parse = some config.parse ∧
        fieldOr .shortCircuit EvaluationMode.ofDocument? evaluation = some config.evaluation := by
  rw [ofDocument?, Option.bind_eq_bind, Option.bind_eq_some_iff]
  constructor
  · rintro ⟨values, hfields, h⟩
    split at h
    · rename_i parse evaluation
      obtain ⟨_, hparse, h⟩ := Option.bind_eq_some_iff.mp h
      obtain ⟨_, hevaluation, h⟩ := Option.bind_eq_some_iff.mp h
      cases h
      exact ⟨parse, evaluation, hfields, hparse, hevaluation⟩
    · cases h
  · rintro ⟨parse, evaluation, hfields, hparse, hevaluation⟩
    exact ⟨_, hfields, Option.bind_eq_some_iff.mpr ⟨_, hparse,
      Option.bind_eq_some_iff.mpr ⟨_, hevaluation, rfl⟩⟩⟩

theorem ParseOptions.ofDocument?_of_isDocument {options : ParseOptions}
    (h : options.IsDocument document) : ofDocument? document = some options := by
  obtain ⟨validation, maxDepth, hvalidation, hmaxDepth, hstructure⟩ := h
  exact ofDocument?_eq_some_iff.mpr ⟨validation, maxDepth,
    Json.Document.fields?_of_isStructure (by simp) hstructure,
    fieldOr_of_orOmitted hvalidation fun _ => Validation.ofDocument?_of_isDocument,
    fieldOr_of_orOmitted hmaxDepth fun _ => maxDepthOfDocument?_of_isMaxDepth⟩

theorem EvaluationMode.ofDocument?_of_isDocument {mode : EvaluationMode}
    (h : mode.IsDocument document) : ofDocument? document = some mode := by
  obtain ⟨flag, hflag, hstructure⟩ := h
  exact ofDocument?_eq_some_iff.mpr ⟨flag,
    Json.Document.fields?_of_isStructure (by simp) hstructure,
    fieldOr_of_orOmitted hflag fun _ => shortCircuitOfDocument?_of_isShortCircuit⟩

theorem EngineConfig.ofDocument?_of_isDocument {config : EngineConfig}
    (h : config.IsDocument document) : ofDocument? document = some config := by
  obtain ⟨parse, evaluation, hparse, hevaluation, hstructure⟩ := h
  exact ofDocument?_eq_some_iff.mpr ⟨parse, evaluation,
    Json.Document.fields?_of_isStructure (by simp) hstructure,
    fieldOr_of_orOmitted hparse fun _ => ParseOptions.ofDocument?_of_isDocument,
    fieldOr_of_orOmitted hevaluation fun _ => EvaluationMode.ofDocument?_of_isDocument⟩

theorem ParseOptions.isDocument_toDocument (options : ParseOptions) :
    options.IsDocument options.toDocument :=
  ⟨some _, some _, .name (Json.Quoted.standsFor_ofText _), rfl,
    Json.isStructure_ofMembers [("validation", _), ("max_depth", _)]⟩

theorem EvaluationMode.isDocument_toDocument (mode : EvaluationMode) :
    mode.IsDocument mode.toDocument :=
  ⟨some _, rfl, Json.isStructure_ofMembers [("short_circuit", _)]⟩

theorem EngineConfig.isDocument_toDocument (config : EngineConfig) :
    config.IsDocument config.toDocument :=
  ⟨some _, some _, config.parse.isDocument_toDocument, config.evaluation.isDocument_toDocument,
    Json.isStructure_ofMembers [("parse", _), ("evaluation", _)]⟩

/-- At some level, the document is an object in which a key that is known there comes again. -/
inductive EngineConfig.RepeatsKey : Json.Document → Prop where
  | config {document : Json.Document} (h : document.Repeats ["parse", "evaluation"]) :
      RepeatsKey document
  | parse {document value : Json.Document} (hfield : HasField "parse" 0 value document)
      (h : value.Repeats ["validation", "max_depth"]) : RepeatsKey document
  | evaluation {document value : Json.Document} (hfield : HasField "evaluation" 1 value document)
      (h : value.Repeats ["short_circuit"]) : RepeatsKey document
  | validation {document parse value : Json.Document} (hparse : HasField "parse" 0 parse document)
      (hfield : HasField "validation" 0 value parse) (h : value.Repeats ["deferred", "eager"]) :
      RepeatsKey document

theorem Validation.ofDocument?_of_repeats {names : List String} (h : document.Repeats names) :
    ofDocument? document = none := by
  obtain ⟨members, rfl, name, -, first, second, hsublist, -⟩ := h
  have hlength := hsublist.length_le
  unfold ofDocument?
  split <;> simp_all

/-- A structure that is read has no field whose document is refused. -/
theorem ofDocument?_of_hasField {α : Type} {default value : α}
    {ofDocument? : Json.Document → Option α} {names : List String} {name : String} {index : Nat}
    {values : List (Option Json.Document)} {field : Option Json.Document} {given : Json.Document}
    (hfields : document.fields? names = some values) (hname : names[index]? = some name)
    (hindex : values[index]? = some field) (hfield : HasField name index given document)
    (hread : fieldOr default ofDocument? field = some value) : ofDocument? given = some value := by
  have hgiven := Json.Document.getElem?_of_hasField hfields hname hfield
  rw [hindex] at hgiven
  cases hgiven
  exact hread

theorem EngineConfig.not_repeatsKey_of_ofDocument? {config : EngineConfig}
    (h : ofDocument? document = some config) : ¬ RepeatsKey document := by
  obtain ⟨parse, evaluation, hfields, hparse, hevaluation⟩ := ofDocument?_eq_some_iff.mp h
  intro hrepeats
  cases hrepeats with
  | config h =>
    rw [Json.Document.fields?_of_repeats h] at hfields
    cases hfields
  | parse hfield h =>
    have hvalue := ofDocument?_of_hasField hfields rfl rfl hfield hparse
    obtain ⟨_, _, hinner, -⟩ := ParseOptions.ofDocument?_eq_some_iff.mp hvalue
    rw [Json.Document.fields?_of_repeats h] at hinner
    cases hinner
  | evaluation hfield h =>
    have hvalue := ofDocument?_of_hasField hfields rfl rfl hfield hevaluation
    obtain ⟨_, hinner, -⟩ := EvaluationMode.ofDocument?_eq_some_iff.mp hvalue
    rw [Json.Document.fields?_of_repeats h] at hinner
    cases hinner
  | validation hfield hinner h =>
    have hvalue := ofDocument?_of_hasField hfields rfl rfl hfield hparse
    obtain ⟨_, _, hinnerFields, hvalidation, -⟩ := ParseOptions.ofDocument?_eq_some_iff.mp hvalue
    have hmode := ofDocument?_of_hasField hinnerFields rfl rfl hinner hvalidation
    rw [Validation.ofDocument?_of_repeats h] at hmode
    cases hmode

theorem EngineConfig.ofJson_of_parse? {config : EngineConfig}
    (hparse : Json.Document.parse? text = some document)
    (hdocument : ofDocument? document = some config) : ofJson text = .ok config := by
  rw [ofJson, hparse, Option.bind_some, hdocument]

/--
A configuration is read from every text that is laid out for a document of it, and so from the text
that is written for it. A text in which a known key comes again, at whichever level, is refused.
-/
theorem EngineConfig.ofJson_of_isDocument :
    (∀ (config : EngineConfig) document text, config.IsDocument document →
      document.LaidOutAs text → ofJson text = .ok config) ∧
    (∀ config : EngineConfig, ofJson config.toJson = .ok config) ∧
    ∀ document text, RepeatsKey document → document.LaidOutAs text →
      ofJson text = .error .unreadable := by
  have hread (config : EngineConfig) (document : Json.Document) (text : String)
      (hdocument : config.IsDocument document) (hlayout : document.LaidOutAs text) :
      ofJson text = .ok config :=
    ofJson_of_parse? (Json.Document.parse?_of_laidOutAs hlayout)
      (ofDocument?_of_isDocument hdocument)
  refine ⟨hread, ?_, ?_⟩
  · intro config
    exact hread config _ _ config.isDocument_toDocument (Json.laidOutAs_toText _)
  · intro document text hrepeats hlayout
    rw [ofJson, Json.Document.parse?_of_laidOutAs hlayout, Option.bind_some]
    cases hconfig : ofDocument? document with
    | none => rfl
    | some config => exact absurd hrepeats (not_repeatsKey_of_ofDocument? hconfig)

/-- The largest bound, members in another order, an array among objects, and a repeated key. -/
theorem EngineConfig.ofJson_of_isDocument_largest :
    let config : EngineConfig := ⟨⟨.eager, 18446744073709551615⟩, .exhaustive⟩
    let text := "\x7b\"evaluation\":[false],\"note\":[],\"parse\":" ++
      "\x7b\"max_depth\":18446744073709551615,\"parse\":null,\"validation\":" ++
      "\x7b\"eager\":null\x7d\x7d\x7d"
    let repeated := "\x7b\"parse\":\x7b\"max_depth\":1,\"max_depth\":1\x7d\x7d"
    (∃ document, config.IsDocument document ∧ document.LaidOutAs text ∧
      ofJson text = .ok config) ∧
    ofJson config.toJson = .ok config ∧
    ∃ document, RepeatsKey document ∧ document.LaidOutAs repeated ∧
      ofJson repeated = .error .unreadable := by
  intro config text repeated
  obtain ⟨hread, hwritten, hrefused⟩ := ofJson_of_isDocument
  let validation : Json.Document := .object [(.ofText "eager", .null)]
  let maxDepth : Json.Document := .ofInt 18446744073709551615
  let parse : Json.Document := .object
    [(.ofText "max_depth", maxDepth), (.ofText "parse", .null), (.ofText "validation", validation)]
  let document : Json.Document := .object
    [(.ofText "evaluation", .array [.bool false]), (.ofText "note", .array []),
      (.ofText "parse", parse)]
  have hparse : ParseOptions.IsDocument ⟨.eager, 18446744073709551615⟩ parse := by
    refine ⟨some validation, some maxDepth, .key (Json.Quoted.standsFor_ofText _), rfl, ?_⟩
    refine .object (Json.Members.hold_of_perm ?_ (@List.perm_append_comm _ [_, _] [_]))
    rw [Json.Members.Avoid, List.forall_mem_singleton]
    exact ⟨"parse", Json.Quoted.standsFor_ofText _, by decide⟩
  have hevaluation : EvaluationMode.exhaustive.IsDocument (.array [.bool false]) :=
    ⟨some (.bool false), rfl, .array 0 rfl⟩
  have hdocument : config.IsDocument document := by
    refine ⟨some parse, some (.array [.bool false]), hparse, hevaluation, ?_⟩
    refine .object (Json.Members.hold_of_perm ?_ (@List.perm_append_comm _ [_, _] [_]))
    rw [Json.Members.Avoid, List.forall_mem_singleton]
    exact ⟨"note", Json.Quoted.standsFor_ofText _, by decide⟩
  have htext : document.toText = text := by decide +kernel
  have hlayout : document.LaidOutAs text := htext ▸ Json.laidOutAs_toText document
  let members : Json.Members := [(.ofText "max_depth", .ofInt 1), (.ofText "max_depth", .ofInt 1)]
  let twice : Json.Document := .object [(.ofText "parse", .object members)]
  have htwice : RepeatsKey twice := by
    have hname := Json.Quoted.standsFor_ofText "max_depth"
    refine .parse (.object (Json.Quoted.standsFor_ofText _) List.mem_cons_self)
      ⟨members, rfl, "max_depth", by decide, _, _, .refl _, hname, hname⟩
  have hrepeated : twice.toText = repeated := by decide +kernel
  have htwiceLayout : twice.LaidOutAs repeated := hrepeated ▸ Json.laidOutAs_toText twice
  exact ⟨⟨document, hdocument, hlayout, hread config document text hdocument hlayout⟩,
    hwritten config, twice, htwice, htwiceLayout, hrefused twice repeated htwice htwiceLayout⟩

end Verdict
