import SchemaCodec.Module.Generate
import SchemaCodec.Proofs.Document.Parsing
import SchemaCodec.Proofs.Json.RoundTrip
import SchemaCodec.Proofs.Link.FaultPlaces

/-! The faults for which a document has no module, and where they are found. -/

namespace SchemaCodec.Module

open Conversion Link

variable {scope : Scope} {schema : Document}

private theorem failsOnly_namedDefinitions (hkeys : ¬ schema.RepeatsKey) :
    (namedDefinitions scope schema).FailsOnly (Points schema) := by
  unfold namedDefinitions
  split
  · exact failsOnly_of_ok rfl
  · next members hmembers =>
      have hmap := Document.at?_of_get? hmembers
      have hdistinct := Document.not_repeatsKey_of_at? hkeys hmap
      apply failsOnly_each
      rintro ⟨key, value⟩ hmember
      have hat := (Document.at?_append hmap [key]).trans (Document.at?_of_mem hdistinct hmember)
      exact (Conversion.failsOnly_define (Document.not_repeatsKey_of_at? hkeys hat) _).mono
        fun fault => points_of_inside hat
  · next hvalue =>
      apply failsOnly_fail
      exact points_of_inside_root (inside_of_has (Document.has_of_get? hvalue) _)

private theorem failsOnly_collect (hkeys : ¬ schema.RepeatsKey) (defaultName : String) :
    (collect scope defaultName schema).FailsOnly (Points schema) := by
  refine failsOnly_bind (failsOnly_namedDefinitions hkeys) fun named _ => ?_
  dsimp only
  split
  · exact failsOnly_of_ok rfl
  · apply failsOnly_reportIf
    refine failsOnly_bind (failsOnly_of_ok rfl) fun _ _ => ?_
    refine failsOnly_bind (failsOnly_of_ok rfl) fun _ _ => ?_
    have hroot : (defineRoot scope defaultName schema).FailsOnly (Points schema) :=
      (failsOnly_defineRoot hkeys defaultName).mono fun fault => points_of_inside_root
    refine failsOnly_bind hroot fun root _ => ?_
    exact failsOnly_bind (failsOnly_expand hkeys) fun endpoint _ => failsOnly_of_ok rfl

private theorem failsOnly_blocksOf (definitions : List Definition) :
    (blocksOf definitions).FailsOnly (Points schema) := by
  have hblock : ∀ declaration metadata fault, Block.ofDeclaration declaration metadata = .error fault →
      ∀ place, fault ≠ .located place := by
    intro declaration metadata fault h place
    rcases error_of_bind h with hnegatives | ⟨negatives, -, h⟩
    · obtain ⟨sample, -, hsample⟩ := error_of_mapM hnegatives
      unfold Block.negative at hsample
      split at hsample
      · cases hsample
      · cases hsample
        rintro ⟨⟩
    · cases h
  apply failsOnly_each
  intro declaration _
  refine failsOnly_bind (failsOnly_ofExcept fun fault h =>
    points_of_not_located (hblock _ _ fault h)) fun block _ => ?_
  apply failsOnly_reportIf
  split <;> exact failsOnly_of_ok rfl

private theorem failsOnly_convert (hkeys : ¬ schema.RepeatsKey) (inputFile : String) :
    (convert scope inputFile schema).FailsOnly (Points schema) :=
  failsOnly_bind (failsOnly_collect hkeys _) fun definitions _ => failsOnly_blocksOf definitions

private theorem exists_convert_of_located {options : Options} {failure : Failure}
    {place : Fault.Located}
    (h : (generate options schema).result = .error failure)
    (hplace : failure.located? = some place) :
    ∃ mappings, (convert (options.scope mappings) options.inputFile schema).result =
      .error (.located place) := by
  unfold generate at h
  split at h
  · cases h
    cases hplace
  · next mappings _ =>
      refine ⟨mappings, ?_⟩
      dsimp only at h
      split at h
      · next cause hcause =>
          cases h
          cases cause with
          | located found =>
              cases hplace
              exact hcause
          | _ => cases hplace
      · split at h
        · cases h
          cases hplace
        · cases h

/-- If a document that was read from a text has no module because of a fault at some place, then the
path of that place is a pointer, and it leads to a value of the document. The one exception are the
headers of an endpoint: there the path has three steps too many. -/
theorem located_failures_point_into_document (options : Options) (schema : Document)
    (failure : Failure) (place : Fault.Located) (hparsed : schema.Parsed)
    (h : (generate options schema).result = .error failure)
    (hplace : failure.located? = some place) :
    ∃ pointer, Pointer.ofText? place.location.path = some pointer ∧
      (schema.Has pointer ∨ ∃ index key rest,
        pointer = ["links", index, "headerSchema", "allOf", "1", "properties", key] ++ rest ∧
          schema.Has (["links", index, "headerSchema", key] ++ rest)) := by
  have hpath : ∀ steps, Pointer.ofText? (Location.root.down steps).path = some steps := by
    intro steps
    rw [Location.path, Location.down, Location.root, List.nil_append, String.empty_append]
    exact Pointer.ofText?_text steps
  obtain ⟨mappings, hfault⟩ := exists_convert_of_located h hplace
  rcases failsOnly_convert hparsed.not_repeatsKey options.inputFile _ hfault place rfl with
    ⟨steps, hlocation, hhas⟩ | ⟨index, key, rest, hhas, hlocation⟩
  · rw [hlocation]
    exact ⟨steps, hpath steps, .inl hhas⟩
  · rw [hlocation]
    exact ⟨_, hpath _, .inr ⟨index, key, rest, rfl, hhas⟩⟩

def placeOptions : Options :=
  ⟨[], "", "place.json", "", 0, "", false, false⟩

def tildeSchema : Document :=
  .object [
    ("definitions", .object [
      ("a~/b", .object [("type", .string "object"), ("properties", .object [("x", .null)])])]),
    ("type", .string "object")]

theorem located_failures_point_into_document_tildeSchema :
    ∃ failure place, tildeSchema.Parsed ∧
      (generate placeOptions tildeSchema).result = .error failure ∧
      failure.located? = some place ∧
      place.location.path = "/definitions/a~0~1b/properties/x" ∧
      ∃ pointer, Pointer.ofText? place.location.path = some pointer ∧
        (tildeSchema.Has pointer ∨ ∃ index key rest,
          pointer = ["links", index, "headerSchema", "allOf", "1", "properties", key] ++ rest ∧
            tildeSchema.Has (["links", index, "headerSchema", key] ++ rest)) := by
  have hparsed : tildeSchema.Parsed := by
    refine ⟨_, .inl (Json.parse_encode_of_wellFormed ?_)⟩
    have hinner : Document.WellFormed (.object
        [("type", .string "object"), ("properties", .object [("x", .null)])]) := by
      refine .object (by decide) ?_
      simp only [List.forall_mem_cons]
      exact ⟨.string _, .object (by decide) (by simpa using .null), List.forall_mem_nil _⟩
    refine .object (by decide) ?_
    simp only [List.forall_mem_cons]
    exact ⟨.object (by decide) (by simpa using hinner), .string _, List.forall_mem_nil _⟩
  have hfailure : ∃ failure place, (generate placeOptions tildeSchema).result = .error failure ∧
      failure.located? = some place ∧ place.location.path = "/definitions/a~0~1b/properties/x" :=
    ⟨_, _, rfl, rfl, by decide⟩
  obtain ⟨failure, place, hgenerate, hplace, hpath⟩ := hfailure
  exact ⟨failure, place, hparsed, hgenerate, hplace, hpath,
    located_failures_point_into_document placeOptions tildeSchema failure place hparsed hgenerate
      hplace⟩

def oddHeader : Document :=
  .object [
    ("links", .array [.object [
      ("rel", .string "implementation"),
      ("href", .string "/x"),
      ("hrefSchema", .bool true),
      ("headerSchema", .object [("X", .null)])]]),
    ("type", .string "object")]

/-- The path of the fault leads to no value of the document. -/
theorem header_failure_points_nowhere :
    ∃ failure place, oddHeader.Parsed ∧
      (generate placeOptions oddHeader).result = .error failure ∧
      failure.located? = some place ∧
      place.location.path = "/links/0/headerSchema/allOf/1/properties/X" ∧
      ∀ pointer, Pointer.ofText? place.location.path = some pointer → ¬ oddHeader.Has pointer := by
  have hparsed : oddHeader.Parsed := by
    refine ⟨_, .inl (Json.parse_encode_of_wellFormed ?_)⟩
    have hlink : Document.WellFormed (.object
        [("rel", .string "implementation"), ("href", .string "/x"), ("hrefSchema", .bool true),
         ("headerSchema", .object [("X", .null)])]) := by
      refine .object (by decide) ?_
      simp only [List.forall_mem_cons]
      exact ⟨.string _, .string _, .bool _, .object (by decide) (by simpa using .null),
        List.forall_mem_nil _⟩
    refine .object (by decide) ?_
    simp only [List.forall_mem_cons]
    exact ⟨.array (by simpa using hlink), .string _, List.forall_mem_nil _⟩
  have hfailure : ∃ failure place, (generate placeOptions oddHeader).result = .error failure ∧
      failure.located? = some place ∧
      place.location.path = "/links/0/headerSchema/allOf/1/properties/X" :=
    ⟨_, _, rfl, rfl, by decide⟩
  obtain ⟨failure, place, hgenerate, hplace, hpath⟩ := hfailure
  refine ⟨failure, place, hparsed, hgenerate, hplace, hpath, ?_⟩
  have hread : Pointer.ofText? "/links/0/headerSchema/allOf/1/properties/X" =
      some ["links", "0", "headerSchema", "allOf", "1", "properties", "X"] := by decide
  intro pointer hpointer
  rw [hpath, hread] at hpointer
  cases hpointer
  decide

end SchemaCodec.Module
