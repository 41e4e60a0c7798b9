import SchemaCodec.Proofs.Batch.ImportTarget
import SchemaCodec.Proofs.Path.Routes

namespace SchemaCodec.Batch

open SchemaCodec.Path

/-! Which modules stay below the output directory. -/

def route (base uri : String) : List String :=
  way (segments (Name.stem (localPart base uri) ++ ".ts"))

theorem outputPath_eq_clean {outputDir : String} (h : outputDir ≠ "") (base uri : String) :
    outputPath outputDir base uri =
      clean (outputDir ++ "/" ++ (Name.stem (localPart base uri) ++ ".ts")) :=
  join_pair h (isName_module _).ne_empty

theorem outputPath_eq_ofSteps {outputDir : String} (h : outputDir ≠ "") (base uri : String) :
    outputPath outputDir base uri =
      ofSteps (isRooted outputDir)
        ((route base uri).foldl (walk (isRooted outputDir)) (position outputDir)).reverse := by
  rw [outputPath_eq_clean h, clean_slash h,
    ← (follows_walk _).way fun _ hpart => not_mem_of_mem_segments hpart]
  rfl

/-- A route ends with the name of the module. -/
theorem exists_route (base uri : String) :
    ∃ ups names, route base uri = List.replicate ups ".." ++ names ∧ names ≠ [] ∧
      ∀ name ∈ names, IsName name := by
  obtain ⟨directories, last, -, hsegments⟩ :=
    exists_segments_append (Name.stem (localPart base uri))
  have hlast := hsegments ".ts" (by decide)
  have hslash : ∀ part ∈ segments (Name.stem (localPart base uri) ++ ".ts"), '/' ∉ part.toList :=
    fun _ hpart => not_mem_of_mem_segments hpart
  have hroute : route base uri = way directories ++ [last ++ ".ts"] := by
    rw [route, way, hlast, List.foldl_append, List.foldl_cons, List.foldl_nil,
      walk_name (isName_module last), List.reverse_cons]
    rfl
  rw [hlast] at hslash
  obtain ⟨ups, names, hway, hnames⟩ := exists_way fun part hpart =>
    hslash part (List.mem_append_left _ hpart)
  refine ⟨ups, names ++ [last ++ ".ts"], ?_, by simp, ?_⟩
  · rw [hroute, hway, List.append_assoc]
  · intro name hname
    rcases List.mem_append.mp hname with hmem | hend
    · exact hnames name hmem
    · exact List.mem_singleton.mp hend ▸ isName_module last

private theorem outputPath_liesBelow_iff {outputDir : String} (h : outputDir ≠ "")
    (base uri : String) :
    LiesBelow outputDir (outputPath outputDir base uri) ↔
      ComesBack (isRooted outputDir) (steps outputDir) (route base uri) := by
  rw [outputPath_eq_clean h]
  exact clean_liesBelow_iff h _

private theorem route_ne_nil (base uri : String) : route base uri ≠ [] := by
  obtain ⟨ups, names, hroute, hne, -⟩ := exists_route base uri
  rw [hroute]
  simp [hne]

/-- A module lies below the output directory exactly if the route of its document comes back from
wherever it leaves the directory. It does so for all output directories exactly if the route never
goes up. -/
theorem modules_confined_iff (base uri : String) :
    (∀ outputDir, outputDir ≠ "" →
      (LiesBelow outputDir (outputPath outputDir base uri) ↔
        ComesBack (isRooted outputDir) (steps outputDir) (route base uri))) ∧
    ((∀ outputDir, outputDir ≠ "" → LiesBelow outputDir (outputPath outputDir base uri)) ↔
      ".." ∉ route base uri) := by
  refine ⟨fun outputDir h => outputPath_liesBelow_iff h base uri, ?_, ?_⟩
  · intro hall
    have hhere := hall "." (by decide)
    rw [outputPath_liesBelow_iff (by decide)] at hhere
    exact not_dots_mem_of_comesBack hhere
  · intro h outputDir hne
    rw [outputPath_liesBelow_iff hne]
    exact comesBack_of_straight (route_ne_nil base uri) h

/-- One route leaves the output directory and comes back, the other goes up and down below it. -/
theorem modules_confined_iff_detours :
    LiesBelow "gen/out" (outputPath "gen/out" "http://x/" "http://x/../out/a.json") ∧
      LiesBelow "gen/out" (outputPath "gen/out" "http://x/" "http://x/a/../b/c.v1.yaml") := by
  constructor
  · apply ((modules_confined_iff "http://x/" "http://x/../out/a.json").1 "gen/out" (by decide)).mpr
    exact ⟨["gen"], ["out"], ["a.ts"], 1, by decide, by decide, by decide +kernel, by decide,
      by decide, .inl rfl⟩
  · apply (modules_confined_iff "http://x/" "http://x/a/../b/c.v1.yaml").2.mpr
    · decide +kernel
    · decide

/-- The identifier of a schema leads its module out of the output directory. -/
theorem module_leaves_output :
    documentUri (FileSystem.bare ["work"]) (.object [("$id", .string "../x.json")]) "a.json" =
        "../x.json" ∧
      outputPath "out" "" "../x.json" = "x.ts" ∧
      ¬ LiesBelow "out" (outputPath "out" "" "../x.json") := by
  have hpath : outputPath "out" "" "../x.json" = "x.ts" := by decide +kernel
  refine ⟨by decide +kernel, hpath, ?_⟩
  rw [hpath]
  rintro ⟨-, names, -, -, hsteps⟩
  have hout : steps "out" = ["out"] := by decide
  have hmodule : steps "x.ts" = ["x.ts"] := by decide
  rw [hout, hmodule] at hsteps
  exact absurd (List.cons.inj hsteps).1 (by decide)

end SchemaCodec.Batch
