import SchemaCodec.CommandLine.Run
import SchemaCodec.Proofs.Except
import SchemaCodec.Proofs.Settings.Layers

namespace SchemaCodec.CommandLine

open Settings

/-! Which settings a command line gives, and when it gives any. -/

/-- What the settings file says; without a file, nothing is said. -/
def fileOverrides? (fs : FileSystem) (environment : Environment) (configFile : String) :
    Option Overrides :=
  if configFile = "" then some {}
  else (fs.read configFile).toOption.bind (Overrides.ofFile? environment)

section

variable {fs : FileSystem} {environment : Environment} {configFile : String} {flags : Flags}
  {file : Overrides}

theorem exists_content (hnamed : configFile ≠ "")
    (h : fileOverrides? fs environment configFile = some file) :
    ∃ content, fs.read configFile = .ok content ∧
      Overrides.ofFile? environment content = some file := by
  rw [fileOverrides?, if_neg hnamed] at h
  cases hread : fs.read configFile with
  | error fault =>
      rw [hread] at h
      cases h
  | ok content =>
      rw [hread] at h
      exact ⟨content, rfl, h⟩

private theorem load_eq (hnamed : configFile ≠ "")
    (h : fileOverrides? fs environment configFile = some file) :
    Settings.load fs environment configFile =
      ((layered file environment.overrides {}).check.mapError LoadError.invalid >>= fun _ =>
        pure (layered file environment.overrides {})) := by
  obtain ⟨content, hread, hfile⟩ := exists_content hnamed h
  have hlayered : layered file environment.overrides {} =
      ((({} : Settings).override file).override environment.overrides).withDefaults := by
    rw [layered, override_over, override_over, override_empty]
  have hcontent : (fs.read configFile).mapError LoadError.unreadable = .ok content :=
    mapError_eq_ok_iff.mpr hread
  unfold Settings.load
  rw [hcontent, hlayered, ok_bind, hfile]

private theorem load_eq_ok_iff (hnamed : configFile ≠ "")
    (h : fileOverrides? fs environment configFile = some file) {settings : Settings} :
    Settings.load fs environment configFile = .ok settings ↔
      settings = layered file environment.overrides {} ∧ settings.check = .ok () := by
  rw [load_eq hnamed h, bind_eq_ok_iff]
  simp only [mapError_eq_ok_iff]
  constructor
  · rintro ⟨_, hcheck, hsettings⟩
    cases hsettings
    exact ⟨rfl, hcheck⟩
  · rintro ⟨rfl, hcheck⟩
    exact ⟨(), hcheck, rfl⟩

private theorem baseSettings_eq_ok_iff (h : fileOverrides? fs environment configFile = some file)
    {settings : Settings} :
    baseSettings fs environment configFile = .ok settings ↔
      settings = layered file environment.overrides {} ∧
        (configFile ≠ "" → settings.check = .ok ()) := by
  by_cases hnone : configFile = ""
  · rw [fileOverrides?, if_pos hnone] at h
    cases h
    rw [baseSettings, if_pos hnone]
    have hlayered : environment.settings = layered {} environment.overrides {} := by
      rw [layered, override_over, override_over, override_empty, override_empty]
      rfl
    rw [hlayered]
    simp [hnone, eq_comm]
  · rw [baseSettings, if_neg hnone, load_eq_ok_iff hnone h]
    simp [hnone]

theorem resolve_eq_ok_iff (h : fileOverrides? fs environment flags.configFile = some file)
    {settings : Settings} :
    resolve fs environment flags = .ok settings ↔
      settings = layered file environment.overrides flags.overrides ∧
        settings.check = .ok () ∧
        (flags.configFile ≠ "" → (layered file environment.overrides {}).check = .ok ()) := by
  unfold resolve
  rw [bind_eq_ok_iff]
  simp only [mapError_eq_ok_iff, baseSettings_eq_ok_iff h]
  constructor
  · rintro ⟨_, ⟨rfl, hbase⟩, hrest⟩
    obtain ⟨_, hcheck, hsettings⟩ := bind_eq_ok_iff.mp hrest
    cases hsettings
    rw [← layered_eq] at hcheck ⊢
    exact ⟨rfl, mapError_eq_ok_iff.mp hcheck, hbase⟩
  · rintro ⟨rfl, hcheck, hbase⟩
    refine ⟨_, ⟨rfl, hbase⟩, bind_eq_ok_iff.mpr ⟨(), ?_, ?_⟩⟩
    · rw [← layered_eq, mapError_eq_ok_iff]
      exact hcheck
    · rw [← layered_eq]
      rfl

/-- Flags come too late for a file whose settings cannot be used. -/
theorem resolve_of_invalid_file {cause : Invalid} (hnamed : flags.configFile ≠ "")
    (h : fileOverrides? fs environment flags.configFile = some file)
    (hcheck : (layered file environment.overrides {}).check = .error cause) :
    resolve fs environment flags = .error (.settingsFile (.invalid cause)) := by
  unfold resolve
  rw [baseSettings, if_neg hnamed, load_eq hnamed h, hcheck]
  rfl

end

/-- A command line gives settings exactly if all layers together can be used and, where a settings
file is named, the layers below the flags can be used without them. If those cannot, the command
line fails for the same cause, whatever its flags say. -/
theorem resolve_succeeds_iff (fs : FileSystem) (environment : Environment) (flags : Flags)
    (file : Overrides) (h : fileOverrides? fs environment flags.configFile = some file) :
    ((∃ settings, resolve fs environment flags = .ok settings) ↔
      (layered file environment.overrides flags.overrides).check = .ok () ∧
        (flags.configFile ≠ "" → (layered file environment.overrides {}).check = .ok ())) ∧
    ∀ cause, flags.configFile ≠ "" →
      (layered file environment.overrides {}).check = .error cause →
        resolve fs environment flags = .error (.settingsFile (.invalid cause)) := by
  refine ⟨?_, fun cause hnamed hcheck => resolve_of_invalid_file hnamed h hcheck⟩
  simp only [resolve_eq_ok_iff h]
  constructor
  · rintro ⟨_, rfl, hcheck⟩
    exact hcheck
  · intro hcheck
    exact ⟨_, rfl, hcheck⟩

def desk : FileSystem where
  here := ["desk"]
  directories := [["desk"]]
  files := [(["desk", "whole.yaml"], "input_file: a.json\noutput_dir: out".toUTF8.toList),
    (["desk", "part.yaml"], "output_dir: out".toUTF8.toList)]

def deskFlags (configFile : String) : Flags :=
  { configFile := configFile, overrides := { inputFile := some "b.json" } }

theorem resolve_succeeds_iff_desk :
    fileOverrides? desk ⟨[]⟩ "whole.yaml" =
        some { inputFile := some "a.json", outputDir := some "out" } ∧
      ∃ settings, resolve desk ⟨[]⟩ (deskFlags "whole.yaml") = .ok settings := by
  have hfile : fileOverrides? desk ⟨[]⟩ (deskFlags "whole.yaml").configFile =
      some { inputFile := some "a.json", outputDir := some "out" } := by
    decide +kernel
  refine ⟨hfile, (resolve_succeeds_iff desk ⟨[]⟩ (deskFlags "whole.yaml") _ hfile).1.mpr ⟨?_, ?_⟩⟩
  · rfl
  · exact fun _ => rfl

/-- With the flag the settings could be used, but the file alone is refused. -/
theorem flags_come_too_late :
    fileOverrides? desk ⟨[]⟩ "part.yaml" = some { outputDir := some "out" } ∧
      (layered { outputDir := some "out" } (Environment.overrides ⟨[]⟩)
        (deskFlags "part.yaml").overrides).check = .ok () ∧
      ¬ ∃ settings, resolve desk ⟨[]⟩ (deskFlags "part.yaml") = .ok settings := by
  have hfile : fileOverrides? desk ⟨[]⟩ "part.yaml" = some { outputDir := some "out" } := by
    decide +kernel
  refine ⟨hfile, rfl, ?_⟩
  rintro ⟨settings, hsettings⟩
  have hfails : resolve desk ⟨[]⟩ (deskFlags "part.yaml") =
      .error (.settingsFile (.invalid .noInputFile)) :=
    resolve_of_invalid_file (by decide) hfile rfl
  rw [hfails] at hsettings
  cases hsettings

end SchemaCodec.CommandLine
