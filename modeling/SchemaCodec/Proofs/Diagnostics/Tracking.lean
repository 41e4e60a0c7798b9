import SchemaCodec.Issue

namespace SchemaCodec

/-! What a tracker knows after a run of reports: all of them in their order, and the worst of
them. -/

namespace Tracker

private theorem reportAll_cons (tracker : Tracker) (report : Report) (reports : List Report) :
    tracker.reportAll (report :: reports) = (tracker.report report).reportAll reports :=
  rfl

theorem entries_reportAll (tracker : Tracker) (reports : List Report) :
    (tracker.reportAll reports).entries = tracker.entries ++ reports := by
  induction reports generalizing tracker with
  | nil => exact (List.append_nil _).symm
  | cons report rest ih =>
      rw [reportAll_cons, ih]
      exact List.append_assoc tracker.entries [report] rest

theorem level_reportAll_eq_error {tracker : Tracker} {reports : List Report} :
    (tracker.reportAll reports).level = .error ↔
      tracker.level = .error ∨ ∃ report ∈ reports, report.severity = .error := by
  induction reports generalizing tracker with
  | nil => simp [reportAll]
  | cons report rest ih =>
      have hlevel : (tracker.report report).level = .error ↔
          tracker.level = .error ∨ report.severity = .error := by
        change tracker.level.escalate report.severity = .error ↔ _
        cases tracker.level <;> cases report.severity <;> decide
      rw [reportAll_cons, ih, hlevel, or_assoc]
      simp

theorem level_reportAll_eq_ok {tracker : Tracker} {reports : List Report} :
    (tracker.reportAll reports).level = .ok ↔
      tracker.level = .ok ∧ ∀ report ∈ reports, report.severity = .info := by
  induction reports generalizing tracker with
  | nil => simp [reportAll]
  | cons report rest ih =>
      have hlevel : (tracker.report report).level = .ok ↔
          tracker.level = .ok ∧ report.severity = .info := by
        change tracker.level.escalate report.severity = .ok ↔ _
        cases tracker.level <;> cases report.severity <;> decide
      rw [reportAll_cons, ih, hlevel, and_assoc]
      simp

end Tracker

private theorem Severity.name_inj {severity other : Severity} :
    severity.name = other.name ↔ severity = other := by
  cases severity <;> cases other <;> decide

theorem Issue.count_ofReport_eq_zero {reports : List Report} {severity : Severity} :
    count (reports.map ofReport) severity = 0 ↔ ∀ report ∈ reports, report.severity ≠ severity := by
  simp [count, ofReport, Severity.name_inj]

end SchemaCodec
