import SchemaCodec.Conversion.Definition
import SchemaCodec.Proofs.Conversion.Faults
import SchemaCodec.Proofs.Document.Pointing
import SchemaCodec.Proofs.Except

namespace SchemaCodec.Conversion

/-! The places of faults are places of the document. -/

theorem Part.at? {schema part : Document} {steps : Pointer} (hkeys : ¬ schema.RepeatsKey)
    (h : Part schema steps part) : schema.at? steps = some part := by
  cases h with
  | @member keyword key members value _ hmembers hmember =>
      have hmap := Document.at?_of_get? hmembers
      have hdistinct := Document.not_repeatsKey_of_at? hkeys hmap
      exact (Document.at?_append hmap [key]).trans (Document.at?_of_mem hdistinct hmember)
  | value _ hvalue => exact Document.at?_of_get? hvalue
  | @item keyword items index value _ hitems hitem =>
      have hlist := Document.at?_of_get? hitems
      exact (Document.at?_append hlist [toString index]).trans (Document.at?_of_getElem? hitem)

private theorem has_of_getElem? {schema item : Document} {keyword : String} {items : List Document}
    {index : Nat} (hitems : schema.get? keyword = some (.array items))
    (hitem : items[index]? = some item) : schema.Has [keyword, toString index] := by
  have hat := Document.at?_append (Document.at?_of_get? hitems) [toString index]
  rw [Document.at?_of_getElem? hitem] at hat
  exact Option.isSome_of_eq_some hat

theorem Breaks.has {scope : Scope} {schema : Document} {steps : Pointer} {problem : Fault.Problem}
    (h : Breaks scope schema steps problem) : schema.Has steps := by
  cases h with
  | notSchema => rfl
  | withoutMeaning => rfl
  | outsideObject _ hvalue => exact Document.has_of_get? hvalue
  | outsideArray hvalue => exact Document.has_of_get? hvalue
  | notObject _ hvalue => exact Document.has_of_get? hvalue
  | openTuple hvalue => exact Document.has_of_get? hvalue
  | requiredNotArray hvalue => exact Document.has_of_get? hvalue
  | requiredNotString hkeys hkey => exact has_of_getElem? hkeys hkey
  | enumNotArray hvalue => exact Document.has_of_get? hvalue
  | enumNotLiteral hvalues hvalue => exact has_of_getElem? hvalues hvalue
  | constNotLiteral hvalue => exact Document.has_of_get? hvalue
  | notArray _ hvalue => exact Document.has_of_get? hvalue
  | referenceNotString hvalue => exact Document.has_of_get? hvalue
  | importName hvalue => exact Document.has_of_get? hvalue

theorem Faulty.has {scope : Scope} {schema : Document} {steps : Pointer} {problem : Fault.Problem}
    (h : Faulty scope schema steps problem) (hkeys : ¬ schema.RepeatsKey) : schema.Has steps := by
  induction h with
  | here hbreaks => exact hbreaks.has
  | inside hpart _ ih =>
      have hat := hpart.at? hkeys
      rw [Document.Has, Document.at?_append hat]
      exact ih (Document.not_repeatsKey_of_at? hkeys hat)

/-- The place of the fault, if it has one, is a place inside a schema at a location. -/
def Inside (location : Location) (schema : Document) (fault : Fault) : Prop :=
  ∀ place, fault = .located place →
    ∃ steps, place.location = location.down steps ∧ schema.Has steps

variable {scope : Scope} {location : Location} {schema : Document}

theorem inside_of_has {steps : Pointer} (h : schema.Has steps) (problem : Fault.Problem) :
    Inside location schema (.located ⟨location.down steps, problem⟩) := by
  rintro _ ⟨⟩
  exact ⟨steps, rfl, h⟩

theorem failsOnly_inside_compile (hkeys : ¬ schema.RepeatsKey) (isTop : Bool) :
    (compile scope isTop location schema).FailsOnly (Inside location schema) := by
  refine (failsOnly_compile scope isTop location schema).mono ?_
  rintro _ ⟨steps, problem, rfl, hfaulty⟩
  exact inside_of_has (hfaulty.has hkeys) problem

theorem failsOnly_brand {allowed : Fault → Prop} (hregexp : ∀ cause, allowed (.regexp cause))
    (name : String) (codec : Codec) : (brand name codec schema).FailsOnly allowed := by
  have hcondition : (condition schema).FailsOnly allowed := by
    unfold condition
    split
    · exact failsOnly_bind (failsOnly_warnAll _) fun _ _ => failsOnly_of_ok rfl
    · next cause hcause =>
        rintro _ ⟨⟩
        exact hregexp cause
  exact failsOnly_bind hcondition fun condition _ => failsOnly_of_ok rfl

private theorem inside_regexp (cause : Regexp.Error) : Inside location schema (.regexp cause) := by
  rintro _ ⟨⟩

/-! Definitions -/

private theorem inside_of_metadata_fail {steps : Pointer} {name : String} {fault : Fault}
    (hhas : schema.Has steps)
    (h : (Metadata.fail (location.down steps) name : Except Fault α) = .error fault) :
    Inside location schema fault := by
  cases h
  exact inside_of_has hhas _

private theorem inside_of_textAt? {key : String} {fault : Fault}
    (h : Metadata.textAt? location schema key = .error fault) : Inside location schema fault := by
  unfold Metadata.textAt? at h
  split at h
  · cases h
  · cases h
  · next hvalue => exact inside_of_metadata_fail (Document.has_of_get? hvalue) h

private theorem inside_of_examplesOf {fault : Fault}
    (h : Metadata.examplesOf location schema = .error fault) : Inside location schema fault := by
  unfold Metadata.examplesOf at h
  split at h
  · cases h
  · cases h
  · next hvalue => exact inside_of_metadata_fail (Document.has_of_get? hvalue) h

private theorem inside_of_invalidOf (hkeys : ¬ schema.RepeatsKey) {fault : Fault}
    (h : Metadata.invalidOf location schema = .error fault) : Inside location schema fault := by
  unfold Metadata.invalidOf at h
  split at h
  · cases h
  · next members hmembers =>
      obtain ⟨⟨encoded, value⟩, hmember, hcause⟩ := error_of_mapM h
      have hmap := Document.at?_of_get? hmembers
      have hat := (Document.at?_append hmap [encoded]).trans
        (Document.at?_of_mem (Document.not_repeatsKey_of_at? hkeys hmap) hmember)
      unfold Metadata.invalidExample at hcause
      split at hcause
      · cases hcause
      · next heq =>
          cases heq
          exact inside_of_metadata_fail (Option.isSome_of_eq_some hat) hcause
  · next hvalue => exact inside_of_metadata_fail (Document.has_of_get? hvalue) h

theorem inside_of_ofSchema (hkeys : ¬ schema.RepeatsKey) {fault : Fault}
    (h : Metadata.ofSchema location schema = .error fault) : Inside location schema fault := by
  unfold Metadata.ofSchema at h
  split at h
  · cases h
  · rcases error_of_bind h with htitle | ⟨title, -, h⟩
    · exact inside_of_textAt? htitle
    · rcases error_of_bind h with hdescription | ⟨description, -, h⟩
      · exact inside_of_textAt? hdescription
      · rcases error_of_bind h with hexamples | ⟨examples, -, h⟩
        · exact inside_of_examplesOf hexamples
        · rcases error_of_bind h with hinvalid | ⟨invalid, -, h⟩
          · exact inside_of_invalidOf hkeys hinvalid
          · cases h

theorem failsOnly_define (hkeys : ¬ schema.RepeatsKey) (name : String) :
    (define scope location name schema).FailsOnly (Inside location schema) := by
  have hbreaks : ∀ steps problem, steps ≠ [] → Breaks scope schema steps problem →
      Inside location schema (.located ⟨location.down steps, problem⟩) :=
    fun steps problem _ h => inside_of_has h.has problem
  have hcodec : (definitionCodec scope location name schema).FailsOnly
      (Inside location schema) := by
    unfold definitionCodec
    split
    · exact failsOnly_bind (failsOnly_inside_compile hkeys true) fun inner _ => failsOnly_of_ok rfl
    · refine failsOnly_bind (failsOnly_referenceAt hbreaks) fun reference hreference => ?_
      have htext := gives_referenceAt.mp (gives_anything_iff.mpr hreference)
      cases reference with
      | some text =>
          exact failsOnly_bind (failsOnly_fromReference hbreaks htext) fun inner _ =>
            failsOnly_of_ok rfl
      | none =>
          exact failsOnly_bind (failsOnly_inside_compile hkeys true) fun inner _ =>
            failsOnly_brand inside_regexp name inner
  refine failsOnly_bind (failsOnly_ofExcept fun fault => inside_of_ofSchema hkeys)
    fun metadata _ => ?_
  exact failsOnly_bind hcodec fun codec _ => failsOnly_of_ok rfl

theorem failsOnly_defineRoot (hkeys : ¬ schema.RepeatsKey) (name : String) :
    (defineRoot scope name schema).FailsOnly (Inside .root schema) := by
  have hbreaks : ∀ steps problem, steps ≠ [] → Breaks scope schema steps problem →
      Inside .root schema (.located ⟨Location.root.down steps, problem⟩) :=
    fun steps problem _ h => inside_of_has h.has problem
  have hroot : (rootCodec scope schema).FailsOnly (Inside .root schema) := by
    refine failsOnly_bind (failsOnly_referenceAt hbreaks) fun reference _ => ?_
    cases reference with
    | some text => exact failsOnly_of_ok rfl
    | none => exact failsOnly_inside_compile hkeys true
  refine failsOnly_bind (failsOnly_ofExcept fun fault => inside_of_ofSchema hkeys)
    fun metadata _ => ?_
  refine failsOnly_bind hroot fun inner _ => ?_
  exact failsOnly_bind (failsOnly_brand inside_regexp name inner) fun codec _ =>
    failsOnly_of_ok rfl

end SchemaCodec.Conversion
