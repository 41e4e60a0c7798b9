import SchemaCodec.Proofs.CommandLine.Layering
import SchemaCodec.Proofs.Settings.Entries
import SchemaCodec.Proofs.Settings.Expansion

namespace SchemaCodec.CommandLine

open Settings

/-! Which source each setting of a command line comes from. -/

/-- The named values of the settings file; without a file there are none. -/
def configEntries? (fs : FileSystem) (environment : Environment) (configFile : String) :
    Option (List (String × Yaml.Node)) :=
  if configFile = "" then some []
  else (fs.read configFile).toOption.bind (fileEntries? environment)

/-- The value of the first source that says something. -/
def firstSaid (flag environment file : Option α) (unset : α) : α :=
  (flag.or (environment.or file)).getD unset

section

variable {fs : FileSystem} {environment : Environment}

private theorem exists_configEntries? {configFile : String} {file : Overrides}
    (h : fileOverrides? fs environment configFile = some file) :
    ∃ entries, configEntries? fs environment configFile = some entries ∧
      file = Overrides.ofEntries entries := by
  by_cases hnone : configFile = ""
  · rw [fileOverrides?, if_pos hnone] at h
    cases h
    exact ⟨[], if_pos hnone, rfl⟩
  · obtain ⟨content, hread, hfile⟩ := exists_content hnone h
    obtain ⟨entries, hentries, heq⟩ := Overrides.exists_fileEntries? hfile
    refine ⟨entries, ?_, heq⟩
    rw [configEntries?, if_neg hnone, hread]
    exact hentries

private theorem exists_fileOverrides?_of_load {path : String} {settings : Settings}
    (hnamed : path ≠ "")
    (h : Settings.load fs environment path = .ok settings) :
    ∃ file, fileOverrides? fs environment path = some file := by
  unfold Settings.load at h
  obtain ⟨content, hread, h⟩ := exists_of_bind_eq_ok h
  rw [fileOverrides?, if_neg hnamed, mapError_eq_ok_iff.mp hread]
  cases hfile : Overrides.ofFile? environment content with
  | none =>
      rw [hfile] at h
      cases h
  | some file => exact ⟨file, hfile⟩

private theorem exists_fileOverrides? {flags : Flags} {settings : Settings}
    (h : resolve fs environment flags = .ok settings) :
    ∃ file, fileOverrides? fs environment flags.configFile = some file := by
  unfold resolve at h
  obtain ⟨base, hbase, -⟩ := exists_of_bind_eq_ok h
  rw [mapError_eq_ok_iff] at hbase
  by_cases hnone : flags.configFile = ""
  · exact ⟨{}, if_pos hnone⟩
  · rw [baseSettings, if_neg hnone] at hbase
    exact exists_fileOverrides?_of_load hnone hbase

end

/-- Settings that a command line gives can be used, and each is what its flag says, else what its
variable says, else what its name in the settings file says, else unset; three of them are never
empty. -/
theorem settings_by_precedence (fs : FileSystem) (environment : Environment) (flags : Flags)
    (settings : Settings) (h : resolve fs environment flags = .ok settings) :
    ∃ entries, configEntries? fs environment flags.configFile = some entries ∧
      settings.check = .ok () ∧
      settings =
        { inputFile := firstSaid flags.overrides.inputFile
            (environment.value? "SCHEMATS_INPUT_FILE") (said? text? entries "input_file") ""
          outputDir := firstSaid flags.overrides.outputDir
            (environment.value? "SCHEMATS_OUTPUT_DIR") (said? text? entries "output_dir") ""
          strict := firstSaid flags.overrides.strict
            ((environment.value? "SCHEMATS_STRICT").map Environment.isYes)
            (said? flag? entries "strict") false
          maskNull := firstSaid flags.overrides.maskNull
            ((environment.value? "SCHEMATS_MASK_NULL").map Environment.isYes)
            (said? flag? entries "mask_null") false
          emit := flags.overrides.emit.or
            (((environment.value? "SCHEMATS_EMIT").map Environment.isYes).or
              (said? flag? entries "emit"))
          base := firstSaid flags.overrides.base
            (environment.value? "SCHEMATS_BASE") (said? text? entries "base") ""
          imports := firstSaid flags.overrides.imports
            ((environment.value? "SCHEMATS_IMPORT").map fun value =>
              (Text.words value.toList).map String.ofList)
            (said? texts? entries "import") []
          hashAlgorithm := orDefault "sha256" (firstSaid flags.overrides.hashAlgorithm
            (environment.value? "SCHEMATS_IMPORT_HASH_ALGORITHM")
            (said? text? entries "import_hash_algorithm") "")
          hashLength := firstSaid flags.overrides.hashLength
            ((environment.value? "SCHEMATS_IMPORT_HASH_LENGTH").bind fun value =>
              Decimal.Numeral.decimal? value.toList)
            (said? integer? entries "import_hash_length") 0
          qed := orDefault "." (firstSaid flags.overrides.qed none (said? text? entries "qed") "")
          continueOnError := firstSaid flags.overrides.continueOnError
            ((environment.value? "SCHEMATS_CONTINUE_ON_ERROR").map Environment.isYes)
            (said? flag? entries "continue_on_error") false
          logLevel := orDefault "warn" (firstSaid flags.overrides.logLevel
            (environment.value? "SCHEMATS_LOG_LEVEL") (said? text? entries "log_level") "")
          metricsFile := firstSaid flags.overrides.metricsFile
            (environment.value? "SCHEMATS_METRICS_TEXTFILE")
            (said? text? entries "metrics_textfile") ""
          watch := firstSaid flags.overrides.watch none (said? flag? entries "watch") false } := by
  obtain ⟨file, hfile⟩ := exists_fileOverrides? h
  obtain ⟨entries, hentries, rfl⟩ := exists_configEntries? hfile
  obtain ⟨hsettings, hcheck, -⟩ := (resolve_eq_ok_iff hfile).mp h
  refine ⟨entries, hentries, hcheck, ?_⟩
  have hemit (said : Option Bool) : (said <|> none) = said := by
    cases said <;> rfl
  rw [hsettings]
  simp only [layered, override, withDefaults, hemit]
  rfl

def shelfParts : List Environment.Part :=
  [.plain "input_file: a.json\noutput_dir: ".toUTF8.toList, .braced "STORE".toUTF8.toList,
    .plain "/out\nqed: ".toUTF8.toList, .named "TOOLS".toUTF8.toList, .plain "/qed\n".toUTF8.toList]

def shelf : FileSystem where
  here := ["shelf"]
  directories := [["shelf"]]
  files := [(["shelf", "whole.yaml"], shelfParts.flatMap Environment.Part.written)]

def shelfEnvironment : Environment :=
  ⟨[("SCHEMATS_BASE", "schemas/"), ("STORE", "build"), ("TOOLS", "lib")]⟩

def shelfFile : Overrides :=
  { inputFile := some "a.json", outputDir := some "build/out", qed := some "lib/qed" }

private theorem expand_shelf :
    shelfEnvironment.expand (shelfParts.flatMap Environment.Part.written) =
      "input_file: a.json\noutput_dir: build/out\nqed: lib/qed\n".toUTF8.toList := by
  have hfit : Environment.Fit shelfParts := by
    decide +kernel
  rw [Environment.expand_parts shelfEnvironment hfit]
  decide +kernel

theorem settings_by_precedence_shelf :
    ∃ settings content, resolve shelf shelfEnvironment (deskFlags "whole.yaml") = .ok settings ∧
      shelf.read "whole.yaml" = .ok content ∧
      shelfEnvironment.expand content =
        "input_file: a.json\noutput_dir: build/out\nqed: lib/qed\n".toUTF8.toList ∧
      settings.inputFile = "b.json" ∧ settings.base = "schemas/" ∧
      settings.outputDir = "build/out" ∧ settings.qed = "lib/qed" ∧
      ∃ entries, configEntries? shelf shelfEnvironment "whole.yaml" = some entries ∧
        settings.outputDir = (said? text? entries "output_dir").getD "" := by
  have hfile : fileOverrides? shelf shelfEnvironment (deskFlags "whole.yaml").configFile =
      some shelfFile := by
    decide +kernel
  have hresolve : resolve shelf shelfEnvironment (deskFlags "whole.yaml") =
      .ok (layered shelfFile shelfEnvironment.overrides (deskFlags "whole.yaml").overrides) :=
    (resolve_eq_ok_iff hfile).mpr ⟨rfl, rfl, fun _ => rfl⟩
  obtain ⟨entries, hentries, -, hsettings⟩ := settings_by_precedence _ _ _ _ hresolve
  exact ⟨_, _, hresolve, rfl, expand_shelf, congrArg Settings.inputFile hsettings,
    congrArg Settings.base hsettings, rfl, rfl, entries, hentries,
    congrArg Settings.outputDir hsettings⟩

end SchemaCodec.CommandLine
