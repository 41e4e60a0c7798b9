import SchemaCodec.Settings.Environment

namespace SchemaCodec.Settings

/-! Layers of settings: several sources as one, and defaults below all of them. -/

/-- What two sources say together: what the upper one does not say is left to the lower one. -/
def Overrides.over (upper lower : Overrides) : Overrides where
  inputFile := upper.inputFile.or lower.inputFile
  outputDir := upper.outputDir.or lower.outputDir
  strict := upper.strict.or lower.strict
  maskNull := upper.maskNull.or lower.maskNull
  emit := upper.emit.or lower.emit
  base := upper.base.or lower.base
  imports := upper.imports.or lower.imports
  hashAlgorithm := upper.hashAlgorithm.or lower.hashAlgorithm
  hashLength := upper.hashLength.or lower.hashLength
  qed := upper.qed.or lower.qed
  continueOnError := upper.continueOnError.or lower.continueOnError
  logLevel := upper.logLevel.or lower.logLevel
  metricsFile := upper.metricsFile.or lower.metricsFile
  watch := upper.watch.or lower.watch

theorem override_over (settings : Settings) (upper lower : Overrides) :
    settings.override (upper.over lower) = (settings.override lower).override upper := by
  simp only [override, Overrides.over, Option.orElse_eq_orElse, Option.orElse_eq_or,
    Option.getD_or, Option.or_assoc]

theorem override_empty (settings : Settings) : settings.override {} = settings := rfl

/-! Defaults -/

private theorem orDefault_orDefault (fallback text : String) :
    orDefault fallback (orDefault fallback text) = orDefault fallback text := by
  by_cases hempty : text = ""
  · subst hempty
    change orDefault fallback fallback = fallback
    exact ite_self _
  · rw [orDefault, orDefault, if_neg hempty, if_neg hempty]

/-- A source may speak after the defaults are filled in. -/
theorem orDefault_getD_orDefault (fallback text : String) (source : Option String) :
    orDefault fallback (source.getD (orDefault fallback text)) =
      orDefault fallback (source.getD text) := by
  cases source with
  | none => exact orDefault_orDefault fallback text
  | some value => rfl

private theorem withDefaults_override_withDefaults (settings : Settings) (overrides : Overrides) :
    (settings.withDefaults.override overrides).withDefaults =
      (settings.override overrides).withDefaults := by
  simp only [withDefaults, override, orDefault_getD_orDefault]

/-- The settings of a file, of the environment and of the command line, each above the one before,
with the defaults below them. -/
def layered (file environment flags : Overrides) : Settings :=
  (({} : Settings).override (flags.over (environment.over file))).withDefaults

theorem layered_eq (file environment flags : Overrides) :
    layered file environment flags =
      ((layered file environment {}).override flags).withDefaults := by
  unfold layered
  rw [withDefaults_override_withDefaults]
  simp only [override_over, override_empty]

end SchemaCodec.Settings
