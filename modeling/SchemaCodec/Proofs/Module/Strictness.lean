import SchemaCodec.Module.Generate
import SchemaCodec.Proofs.Diagnostics.Tracking

namespace SchemaCodec.Module

/-! Strictness decides whether a module with warnings may be used, and nothing else. -/

def Options.withStrict (options : Options) (strict : Bool) : Options :=
  { options with strict := strict }

def Outcome.reports (outcome : Outcome) : List Report :=
  outcome.events.filterMap Event.report?

/-- The document cannot be converted, whatever is reported about it. -/
inductive FailsHard (options : Options) (schema : Document) : Failure → Prop where
  | mapping {cause : ImportMapping.Error} :
      ImportMapping.parseAll options.imports = .error cause →
        FailsHard options schema (.mapping cause)
  | fault {mappings : List ImportMapping} {cause : Fault} :
      ImportMapping.parseAll options.imports = .ok mappings →
        (convert (options.scope mappings) options.inputFile schema).result = .error cause →
        FailsHard options schema (.fault cause)

/-- The document is converted into a module, and the verdict on it is up to the reports. -/
structure Converts (options : Options) (schema : Document) (m : Module) (tracker : Tracker) :
    Prop where
  reported : tracker = (Tracker.fresh options.inputFile).reportAll
    (generate (options.withStrict false) schema).reports
  issues : m.issues = tracker.entries.map Issue.ofReport
  result : ∀ strict, (generate (options.withStrict strict) schema).result =
    match tracker.refusal? strict with
    | some cause => .error (.refused cause)
    | none => .ok m

variable {options : Options} {schema : Document}

section

variable {mappings : List ImportMapping}
  (hmappings : ImportMapping.parseAll options.imports = .ok mappings)

include hmappings

private theorem events_of_mappings (strict : Bool) :
    (generate (options.withStrict strict) schema).events =
      (convert (options.scope mappings) options.inputFile schema).events := by
  have hsame : ImportMapping.parseAll (options.withStrict strict).imports = .ok mappings := hmappings
  unfold generate
  rw [hsame]
  rfl

private theorem result_of_mappings (strict : Bool) :
    (generate (options.withStrict strict) schema).result =
      match (convert (options.scope mappings) options.inputFile schema).result with
      | .error cause => .error (.fault cause)
      | .ok blocks =>
        let context := (Context.fresh options.inputFile).absorb
          (convert (options.scope mappings) options.inputFile schema).events
        match context.tracker.refusal? strict with
        | some cause => .error (.refused cause)
        | none => .ok (ofBlocks schema context blocks) := by
  have hsame : ImportMapping.parseAll (options.withStrict strict).imports = .ok mappings := hmappings
  unfold generate
  rw [hsame]
  rfl

private theorem converts_of_blocks {blocks : List Block}
    (hblocks : (convert (options.scope mappings) options.inputFile schema).result = .ok blocks) :
    ∃ m tracker, Converts options schema m tracker := by
  let context := (Context.fresh options.inputFile).absorb
    (convert (options.scope mappings) options.inputFile schema).events
  refine ⟨ofBlocks schema context blocks, context.tracker, ?_, rfl, ?_⟩
  · rw [Outcome.reports, events_of_mappings hmappings]
    rfl
  · intro strict
    rw [result_of_mappings hmappings, hblocks]

end

private theorem events_withStrict (options : Options) (schema : Document) (strict : Bool) :
    (generate (options.withStrict strict) schema).events =
      (generate (options.withStrict false) schema).events := by
  cases hmappings : ImportMapping.parseAll options.imports with
  | error cause => simp [generate, Options.withStrict, hmappings]
  | ok mappings => rw [events_of_mappings hmappings, events_of_mappings hmappings]

theorem FailsHard.result {failure : Failure} (h : FailsHard options schema failure)
    (strict : Bool) :
    (generate (options.withStrict strict) schema).result = .error failure := by
  cases h with
  | mapping hmappings => simp [generate, Options.withStrict, hmappings]
  | fault hmappings hresult => rw [result_of_mappings hmappings, hresult]

private theorem failsHard_or_converts (options : Options) (schema : Document) :
    (∃ failure, FailsHard options schema failure) ∨
      ∃ m tracker, Converts options schema m tracker := by
  cases hmappings : ImportMapping.parseAll options.imports with
  | error cause => exact .inl ⟨_, .mapping hmappings⟩
  | ok mappings =>
      cases hresult : (convert (options.scope mappings) options.inputFile schema).result with
      | error cause => exact .inl ⟨_, .fault hmappings hresult⟩
      | ok blocks => exact .inr (converts_of_blocks hmappings hresult)

namespace Converts

variable {m : Module} {tracker : Tracker}

private theorem not_failsHard (h : Converts options schema m tracker) {failure : Failure} :
    ¬ FailsHard options schema failure := by
  intro hfails
  have hresult := (h.result false).symm.trans (hfails.result false)
  cases hfails with
  | mapping => cases hrefusal : tracker.refusal? false <;> simp [hrefusal] at hresult
  | fault => cases hrefusal : tracker.refusal? false <;> simp [hrefusal] at hresult

private theorem level_eq_error (h : Converts options schema m tracker) :
    tracker.level = .error ↔
      ∃ report ∈ (generate (options.withStrict false) schema).reports,
        report.severity = .error := by
  rw [h.reported, Tracker.level_reportAll_eq_error]
  exact or_iff_right Level.noConfusion

private theorem count_issues_eq_zero (h : Converts options schema m tracker) {severity : Severity} :
    Issue.count m.issues severity = 0 ↔
      ∀ report ∈ (generate (options.withStrict false) schema).reports,
        report.severity ≠ severity := by
  rw [h.issues, h.reported, Tracker.entries_reportAll]
  exact Issue.count_ofReport_eq_zero

private theorem level_eq_ok (h : Converts options schema m tracker)
    (herrors : Issue.count m.issues .error = 0) :
    tracker.level = .ok ↔ Issue.count m.issues .warning = 0 := by
  have herror := h.count_issues_eq_zero.mp herrors
  rw [h.count_issues_eq_zero, h.reported, Tracker.level_reportAll_eq_ok]
  constructor
  · intro hinfo report hreport hwarning
    have hseverity := hinfo.2 report hreport
    rw [hwarning] at hseverity
    cases hseverity
  · intro hwarning
    refine ⟨rfl, fun report hreport => ?_⟩
    have hnone := hwarning report hreport
    have hcalm := herror report hreport
    cases hseverity : report.severity with
    | info => rfl
    | warning => exact absurd hseverity hnone
    | error => exact absurd hseverity hcalm

/-- Errors are refused in either mode. -/
theorem refused (h : Converts options schema m tracker) (hlevel : tracker.level = .error)
    (strict : Bool) :
    (generate (options.withStrict strict) schema).result =
      .error (.refused (.errors tracker.causes)) := by
  rw [h.result, Tracker.refusal?, hlevel]

/-- Without errors, it is up to strictness what becomes of warnings. -/
theorem accepted (h : Converts options schema m tracker) (hlevel : tracker.level ≠ .error) :
    (generate (options.withStrict false) schema).result = .ok m ∧
      (generate (options.withStrict true) schema).result =
        if tracker.level = .ok then .ok m else .error (.refused .warnings) := by
  rw [h.result, h.result, Tracker.refusal?, Tracker.refusal?]
  cases hworst : tracker.level with
  | ok => exact ⟨rfl, rfl⟩
  | warning => exact ⟨rfl, rfl⟩
  | error => exact absurd hworst hlevel

end Converts

/-- Either mode fails alike, or both modes look at a module without errors. -/
theorem fails_or_converts (options : Options) (schema : Document) :
    (∃ failure, (∀ strict, (generate (options.withStrict strict) schema).result = .error failure) ∧
      (FailsHard options schema failure ∨
        ∃ report ∈ (generate (options.withStrict false) schema).reports,
          report.severity = .error)) ∨
    ∃ m tracker, Converts options schema m tracker ∧ tracker.level ≠ .error := by
  rcases failsHard_or_converts options schema with ⟨failure, hfails⟩ | ⟨m, tracker, hconverts⟩
  · exact .inl ⟨failure, hfails.result, .inl hfails⟩
  · by_cases hlevel : tracker.level = .error
    · exact .inl ⟨_, hconverts.refused hlevel, .inr (hconverts.level_eq_error.mp hlevel)⟩
    · exact .inr ⟨m, tracker, hconverts, hlevel⟩

/-- A document gives a module unless it cannot be converted or an error is reported about it.
Strictness refuses modules with warnings. It changes no module, no failure and no diagnostics. -/
theorem strict_only_refuses (options : Options) (schema : Document) :
    ((∃ m, (generate (options.withStrict false) schema).result = .ok m) ↔
      (∀ failure, ¬ FailsHard options schema failure) ∧
        ∀ report ∈ (generate (options.withStrict false) schema).reports,
          report.severity ≠ .error) ∧
    (∀ m, (generate (options.withStrict false) schema).result = .ok m →
      Issue.count m.issues .error = 0 ∧
        (generate (options.withStrict true) schema).result =
          if Issue.count m.issues .warning = 0 then .ok m else .error (.refused .warnings)) ∧
    (∀ failure, (generate (options.withStrict false) schema).result = .error failure →
      (generate (options.withStrict true) schema).result = .error failure) ∧
    (∀ failure, FailsHard options schema failure →
      (generate (options.withStrict false) schema).result = .error failure) ∧
    (generate (options.withStrict true) schema).diagnostics options.inputFile =
      (generate (options.withStrict false) schema).diagnostics options.inputFile := by
  have hdiagnostics : (generate (options.withStrict true) schema).diagnostics options.inputFile =
      (generate (options.withStrict false) schema).diagnostics options.inputFile := by
    rw [Outcome.diagnostics, events_withStrict, ← Outcome.diagnostics]
  rcases fails_or_converts options schema with
    ⟨failure, hfails, hcause⟩ | ⟨m, tracker, hconverts, hlevel⟩
  · have hlenient := hfails false
    refine ⟨?_, ?_, ?_, fun _ hhard => hhard.result false, hdiagnostics⟩
    · apply iff_of_false
      · rintro ⟨m, hok⟩
        cases hlenient.symm.trans hok
      · rintro ⟨hnone, hcalm⟩
        rcases hcause with hhard | ⟨report, hreport, hseverity⟩
        · exact hnone failure hhard
        · exact hcalm report hreport hseverity
    · intro m hok
      cases hlenient.symm.trans hok
    · intro other hother
      exact (hfails true).trans (hlenient.symm.trans hother)
  · obtain ⟨hlenient, hstrict⟩ := hconverts.accepted hlevel
    have herror : ∀ report ∈ (generate (options.withStrict false) schema).reports,
        report.severity ≠ .error := by
      intro report hreport hseverity
      exact hlevel (hconverts.level_eq_error.mpr ⟨report, hreport, hseverity⟩)
    have herrors := hconverts.count_issues_eq_zero.mpr herror
    refine ⟨?_, ?_, ?_, fun _ hhard => hhard.result false, hdiagnostics⟩
    · exact iff_of_true ⟨m, hlenient⟩ ⟨fun _ => hconverts.not_failsHard, herror⟩
    · intro other hother
      obtain rfl := Except.ok.inj (hlenient.symm.trans hother)
      refine ⟨herrors, hstrict.trans ?_⟩
      simp only [hconverts.level_eq_ok herrors]
    · intro failure hfailure
      cases hlenient.symm.trans hfailure

def noteOptions : Options :=
  ⟨[], "", "note.json", "", 0, "", false, false⟩

def undatedSchema : Document :=
  .object [("type", .string "string")]

/-- The root is a reference, which is an error, and a keyword is unknown. -/
def pointingSchema : Document :=
  .object [("$ref", .string "other.json"), ("draft", .bool true)]

theorem strict_only_refuses_note :
    (∃ m, (generate (noteOptions.withStrict false) undatedSchema).result = .ok m ∧
      (generate (noteOptions.withStrict true) undatedSchema).result =
        .error (.refused .warnings)) ∧
    ∃ failure, (generate (noteOptions.withStrict false) pointingSchema).result = .error failure ∧
      (generate (noteOptions.withStrict true) pointingSchema).result = .error failure := by
  have hundated : ∃ m, (generate (noteOptions.withStrict false) undatedSchema).result = .ok m ∧
      Issue.count m.issues .warning = 1 := ⟨_, rfl, by decide⟩
  have hpointing : ∃ failure,
      (generate (noteOptions.withStrict false) pointingSchema).result = .error failure := ⟨_, rfl⟩
  obtain ⟨m, hm, hcount⟩ := hundated
  obtain ⟨failure, hfailure⟩ := hpointing
  have hrefused := ((strict_only_refuses noteOptions undatedSchema).2.1 m hm).2
  have hfails := (strict_only_refuses noteOptions pointingSchema).2.2.1 failure hfailure
  rw [hcount, if_neg (by decide)] at hrefused
  exact ⟨⟨m, hm, hrefused⟩, failure, hfailure, hfails⟩

end SchemaCodec.Module
