import Mathlib.Data.List.Basic
import SchemaCodec.Proofs.Diagnostics.Tracking

namespace SchemaCodec

/-! The books of a tracker. Level, causes and written text are kept apart from the entries, and
agree with them after every run of reports. -/

def Level.rank (level : Level) : Nat :=
  Level.all.idxOf level

private theorem Level.rank_le_escalate (level : Level) (severity : Severity) :
    level.rank ≤ (level.escalate severity).rank := by
  cases level <;> cases severity <;> decide

namespace Report

/-- The reports that can be made; only errors have causes. -/
inductive Made : Report → Prop where
  | info (message : String) : Made (.info message)
  | warning (message : String) : Made (.warning message)
  | error (message : String) (cause : Option String) : Made (.error message cause)

def Occurs (severity : Severity) (reports : List Report) : Prop :=
  ∃ report ∈ reports, report.severity = severity

instance (severity : Severity) (reports : List Report) : Decidable (Occurs severity reports) :=
  inferInstanceAs (Decidable (∃ report ∈ reports, report.severity = severity))

def worst (reports : List Report) : Level :=
  if Occurs .error reports then .error
  else if Occurs .warning reports then .warning
  else .ok

def causeOfError? (report : Report) : Option String :=
  if report.severity = .error then report.cause else none

private theorem Made.causeOfError?_eq {report : Report} (h : report.Made) :
    report.causeOfError? = report.cause := by
  cases h with
  | info message => rfl
  | warning message => rfl
  | error message cause => rfl

private theorem occurs_append_singleton {severity : Severity} {reports : List Report}
    {report : Report} :
    Occurs severity (reports ++ [report]) ↔
      Occurs severity reports ∨ report.severity = severity := by
  constructor
  · rintro ⟨found, hfound, hseverity⟩
    rcases List.mem_append.mp hfound with hearlier | hlast
    · exact .inl ⟨found, hearlier, hseverity⟩
    · exact .inr (List.mem_singleton.mp hlast ▸ hseverity)
  · rintro (⟨found, hfound, hseverity⟩ | hseverity)
    · exact ⟨found, List.mem_append_left _ hfound, hseverity⟩
    · exact ⟨report, List.mem_append_right _ (List.mem_singleton_self _), hseverity⟩

private theorem worst_append_singleton (reports : List Report) (report : Report) :
    worst (reports ++ [report]) = (worst reports).escalate report.severity := by
  unfold worst
  simp only [occurs_append_singleton]
  cases report.severity with
  | info => simp [Level.escalate]
  | warning =>
      by_cases herror : Occurs .error reports
      · simp [Level.escalate, herror]
      · by_cases hwarning : Occurs .warning reports
        · simp [Level.escalate, herror, hwarning]
        · simp [Level.escalate, herror, hwarning]
  | error => simp [Level.escalate]

end Report

namespace Tracker

/-- What is kept apart from the entries is what the entries give. -/
structure Agrees (tracker : Tracker) : Prop where
  level : tracker.level = Report.worst tracker.entries
  causes : tracker.causes = tracker.entries.filterMap Report.cause
  written : tracker.written = String.join (tracker.entries.map (Report.text tracker.file))

private theorem agrees_fresh (file : String) : (fresh file).Agrees :=
  ⟨rfl, rfl, rfl⟩

theorem Agrees.report {tracker : Tracker} (h : tracker.Agrees) (report : Report) :
    (tracker.report report).Agrees where
  level := by
    change tracker.level.escalate report.severity = Report.worst (tracker.entries ++ [report])
    rw [Report.worst_append_singleton, h.level]
  causes := by
    change tracker.causes ++ report.cause.toList =
      (tracker.entries ++ [report]).filterMap Report.cause
    rw [List.filterMap_append, h.causes]
    cases hcause : report.cause with
    | none =>
        rw [List.filterMap_cons_none hcause]
        rfl
    | some cause =>
        rw [List.filterMap_cons_some hcause]
        rfl
  written := by
    change tracker.written ++ report.text tracker.file =
      String.join ((tracker.entries ++ [report]).map (Report.text tracker.file))
    rw [List.map_append, String.join_append, h.written, List.map_singleton, String.join_cons,
      String.join_nil, String.append_empty]

theorem Agrees.reportAll {tracker : Tracker} (h : tracker.Agrees) (reports : List Report) :
    (tracker.reportAll reports).Agrees := by
  induction reports generalizing tracker with
  | nil => exact h
  | cons report rest ih => exact ih (h.report report)

private theorem file_reportAll (tracker : Tracker) (reports : List Report) :
    (tracker.reportAll reports).file = tracker.file := by
  induction reports generalizing tracker with
  | nil => rfl
  | cons report rest ih => exact ih (tracker.report report)

private theorem rank_le_reportAll (tracker : Tracker) (reports : List Report) :
    tracker.level.rank ≤ (tracker.reportAll reports).level.rank := by
  induction reports generalizing tracker with
  | nil => exact Nat.le_refl _
  | cons report rest ih =>
      have hstep : tracker.level.rank ≤ (tracker.report report).level.rank :=
        tracker.level.rank_le_escalate report.severity
      exact Nat.le_trans hstep (ih (tracker.report report))

private theorem reportAll_append (tracker : Tracker) (before after : List Report) :
    tracker.reportAll (before ++ after) = (tracker.reportAll before).reportAll after :=
  List.foldl_append

private theorem Agrees.refusal?_eq {tracker : Tracker} (h : tracker.Agrees) (strict : Bool) :
    tracker.refusal? strict =
      if Report.Occurs .error tracker.entries then
        some (.errors (tracker.entries.filterMap Report.cause))
      else if strict = true ∧ Report.Occurs .warning tracker.entries then some .warnings
      else none := by
  rw [refusal?, h.level, h.causes, Report.worst]
  by_cases herror : Report.Occurs .error tracker.entries
  · rw [if_pos herror, if_pos herror]
  · rw [if_neg herror, if_neg herror]
    by_cases hwarning : Report.Occurs .warning tracker.entries
    · simp [hwarning]
    · simp [hwarning]

def after (file : String) (reports : List Report) : Tracker :=
  (fresh file).reportAll reports

private theorem agrees_after (file : String) (reports : List Report) :
    (after file reports).Agrees :=
  (agrees_fresh file).reportAll reports

private theorem entries_after (file : String) (reports : List Report) :
    (after file reports).entries = reports :=
  entries_reportAll (fresh file) reports

private theorem rank_after_le (file : String) (earlier later : List Report) :
    (after file earlier).level.rank ≤ (after file (earlier ++ later)).level.rank := by
  rw [after, after, reportAll_append]
  exact rank_le_reportAll _ later

private theorem refusal?_after {reports : List Report} (hmade : ∀ report ∈ reports, report.Made)
    (file : String) (strict : Bool) :
    (after file reports).refusal? strict =
      if Report.Occurs .error reports then some (.errors (reports.filterMap Report.causeOfError?))
      else if strict = true ∧ Report.Occurs .warning reports then some .warnings
      else none := by
  have hcauses : reports.filterMap Report.cause = reports.filterMap Report.causeOfError? :=
    List.filterMap_congr fun report hreport => (hmade report hreport).causeOfError?_eq.symm
  rw [(agrees_after file reports).refusal?_eq, entries_after, hcauses]

/-- After any run of reports a tracker has them all in order, its level is the worst of them and has
never gone down, their texts are written, and its verdict is the one they call for. -/
theorem reports_are_booked (file : String) (reports : List Report)
    (hmade : ∀ report ∈ reports, report.Made) (strict : Bool) :
    (after file reports).entries = reports ∧
    (after file reports).level =
      (if Report.Occurs .error reports then .error
        else if Report.Occurs .warning reports then .warning
        else .ok) ∧
    (∀ earlier later, reports = earlier ++ later →
      (after file earlier).level.rank ≤ (after file reports).level.rank) ∧
    (after file reports).written =
      String.join (reports.map fun report =>
        report.severity.name ++ ": " ++ report.message ++ "\n  in " ++ file ++ "\n") ∧
    ((after file reports).refusal? strict = none ↔
      ¬ Report.Occurs .error reports ∧ (strict = false ∨ ¬ Report.Occurs .warning reports)) ∧
    ((after file reports).refusal? strict = some .warnings ↔
      ¬ Report.Occurs .error reports ∧ strict = true ∧ Report.Occurs .warning reports) ∧
    ∀ causes, (after file reports).refusal? strict = some (.errors causes) ↔
      Report.Occurs .error reports ∧ causes = reports.filterMap Report.causeOfError? := by
  have hagrees := agrees_after file reports
  have hentries := entries_after file reports
  have hfile : (after file reports).file = file := file_reportAll (fresh file) reports
  have hverdict := refusal?_after hmade file strict
  refine ⟨hentries, ?_, ?_, ?_, ?_⟩
  · rw [hagrees.level, hentries]
    rfl
  · rintro earlier later rfl
    exact rank_after_le file earlier later
  · rw [hagrees.written, hentries, hfile]
    rfl
  · rw [hverdict]
    by_cases herror : Report.Occurs .error reports
    · simp [herror, eq_comm]
    · by_cases hwarning : Report.Occurs .warning reports
      · cases strict <;> simp [herror, hwarning]
      · simp [herror, hwarning]

def unevenReports : List Report :=
  [.warning "tuple", .error "enum" none, .info "title", .error "pattern" (some "unclosed group"),
    .warning "contains"]

private theorem made_unevenReports : ∀ report ∈ unevenReports, report.Made := by
  simp only [unevenReports, List.forall_mem_cons]
  exact ⟨.warning _, .error _ _, .info _, .error _ _, .warning _, List.forall_mem_nil _⟩

theorem reports_are_booked_uneven :
    (∀ report ∈ unevenReports, report.Made) ∧ (after "a.json" unevenReports).level = .error ∧
      (after "a.json" unevenReports).refusal? true = some (.errors ["unclosed group"]) := by
  obtain ⟨-, hlevel, -, -, -, -, herrors⟩ :=
    reports_are_booked "a.json" unevenReports made_unevenReports true
  refine ⟨made_unevenReports, ?_, ?_⟩
  · rw [hlevel]
    decide
  · rw [herrors]
    decide

end Tracker

end SchemaCodec
