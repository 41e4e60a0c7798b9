import SchemaCodec.Link.Endpoint
import SchemaCodec.Proofs.Conversion.FaultPlaces

/-! Where the faults of an endpoint are found: at a value of the document, except for headers, whose
schema is put together from parts of the document. -/

namespace SchemaCodec.Conversion

/-- Conditions under which a schema breaks no rule by itself. -/
structure Orderly (scope : Scope) (schema : Document) : Prop where
  object : schema.isObject = true
  meaning : ¬ Silent scope schema
  type : (∀ keyword ∈ objectKeywords, schema.get? keyword = none) ∨
    schema.stringAt? "type" = some "object"
  maps : ∀ keyword ∈ ["properties", "patternProperties"], ∀ value,
    schema.get? keyword = some value → value.isObject = true
  required : ∀ value, schema.get? "required" = some value →
    ∃ keys : List String, value = .array (keys.map .string)
  const : ∀ value, schema.get? "const" = some value → (literal? value).isSome = true
  combined : ∀ keyword ∈ combiningKeywords, ∀ value, schema.get? keyword = some value →
    value.isArray = true
  absent : ∀ keyword ∈ ["items", "enum", "$ref"], schema.get? keyword = none

private theorem Orderly.not_breaks {scope : Scope} {schema : Document} {steps : Pointer}
    {problem : Fault.Problem} (h : Orderly scope schema) :
    ¬ Breaks scope schema steps problem := by
  have hitems := h.absent "items" (by simp)
  have henum := h.absent "enum" (by simp)
  have href := h.absent "$ref" (by simp)
  intro hbreaks
  cases hbreaks with
  | notSchema hobject => simp [h.object] at hobject
  | withoutMeaning _ hsilent => exact h.meaning hsilent
  | outsideObject hkeyword hvalue htype =>
      rcases h.type with hnone | hobject
      · simp [hnone _ hkeyword] at hvalue
      · exact htype hobject
  | outsideArray hvalue => simp [hitems] at hvalue
  | notObject hkeyword hvalue hobject => simp [h.maps _ hkeyword _ hvalue] at hobject
  | openTuple hvalue => simp [hitems] at hvalue
  | requiredNotArray hvalue harray =>
      obtain ⟨keys, rfl⟩ := h.required _ hvalue
      cases harray
  | requiredNotString hkeys hkey hstring =>
      obtain ⟨keys, hkeys⟩ := h.required _ hkeys
      cases hkeys
      rw [List.getElem?_map, Option.map_eq_some_iff] at hkey
      obtain ⟨key, -, rfl⟩ := hkey
      cases hstring
  | enumNotArray hvalue => simp [henum] at hvalue
  | enumNotLiteral hvalues => simp [henum] at hvalues
  | constNotLiteral hvalue hliteral =>
      have hsome := h.const _ hvalue
      rw [hliteral] at hsome
      cases hsome
  | notArray hkeyword hvalue harray => simp [h.combined _ hkeyword _ hvalue] at harray
  | referenceNotString hvalue => simp [href] at hvalue
  | importName hvalue => simp [href] at hvalue

/-- What is wrong with an orderly schema is wrong with a part of it. -/
theorem Orderly.exists_part {scope : Scope} {schema : Document} {steps : Pointer}
    {problem : Fault.Problem} (h : Orderly scope schema)
    (hfaulty : Faulty scope schema steps problem) :
    ∃ front value rest, steps = front ++ rest ∧ Part schema front value ∧
      Faulty scope value rest problem := by
  cases hfaulty with
  | here hbreaks => exact absurd hbreaks h.not_breaks
  | inside hpart hinside => exact ⟨_, _, _, rfl, hpart, hinside⟩

def structuringKeywords : List String :=
  objectKeywords ++ combiningKeywords ++ ["required", "items", "enum", "$ref"]

/-- A schema without structure breaks no rule if it says anything, and nothing is inside it. -/
theorem not_faulty_of_absent {scope : Scope} {schema : Document} {steps : Pointer}
    {problem : Fault.Problem} (hobject : schema.isObject = true) (hmeaning : ¬ Silent scope schema)
    (hconst : ∀ value, schema.get? "const" = some value → (literal? value).isSome = true)
    (hkeys : ∀ key ∈ schema.keys, key ∉ structuringKeywords) :
    ¬ Faulty scope schema steps problem := by
  have habsent : ∀ keyword ∈ structuringKeywords, schema.get? keyword = none :=
    fun keyword hkeyword => Document.get?_eq_none_of_not_mem fun hkey => hkeys keyword hkey hkeyword
  have hnever : ∀ {keyword : String} {value : Document}, keyword ∈ structuringKeywords →
      schema.get? keyword ≠ some value := fun hkeyword hvalue =>
    hkeys _ (Document.mem_keys_of_get? hvalue) hkeyword
  have hmap : ∀ keyword ∈ ["properties", "patternProperties"],
      keyword ∈ structuringKeywords := by decide
  have hvalue : ∀ keyword ∈ ["propertyNames", "additionalProperties", "items"],
      keyword ∈ structuringKeywords := by decide
  have hlist : ∀ keyword ∈ "items" :: combiningKeywords, keyword ∈ structuringKeywords := by decide
  have hother : ∀ keyword ∈ ["items", "enum", "$ref"], keyword ∈ structuringKeywords := by decide
  have horderly : Orderly scope schema := by
    refine ⟨hobject, hmeaning, .inl ?_, ?_, ?_, hconst, ?_, ?_⟩
    · exact fun keyword hkeyword => habsent keyword (by simp [structuringKeywords, hkeyword])
    · exact fun keyword hkeyword value hfound => absurd hfound (hnever (hmap keyword hkeyword))
    · exact fun value hfound => absurd hfound (hnever (by decide))
    · exact fun keyword hkeyword value hfound =>
        absurd hfound (hnever (hlist keyword (List.mem_cons_of_mem _ hkeyword)))
    · exact fun keyword hkeyword => habsent keyword (hother keyword hkeyword)
  intro h
  obtain ⟨front, part, rest, -, hpart, -⟩ := horderly.exists_part h
  cases hpart with
  | member hkeyword hfound => exact hnever (hmap _ hkeyword) hfound
  | value hkeyword hfound => exact hnever (hvalue _ hkeyword) hfound
  | item hkeyword hfound => exact hnever (hlist _ hkeyword) hfound

private theorem not_faulty_constant {scope : Scope} {steps : Pointer} {problem : Fault.Problem}
    {members : List (String × Document)} {text : String}
    (hconst : (Document.object members).get? "const" = some (.string text))
    (hkeys : ∀ key ∈ members.map Prod.fst, key ∉ structuringKeywords) :
    ¬ Faulty scope (.object members) steps problem := by
  refine not_faulty_of_absent rfl ?_ ?_ hkeys
  · intro hsilent
    rw [hsilent.const] at hconst
    cases hconst
  · intro value hvalue
    rw [hconst] at hvalue
    cases hvalue
    rfl

private theorem not_faulty_bool {scope : Scope} {accepts : Bool} {steps : Pointer}
    {problem : Fault.Problem} : ¬ Faulty scope (.bool accepts) steps problem := by
  intro h
  cases h with
  | here hbreaks =>
      cases hbreaks with
      | notSchema _ hbool => exact hbool accepts rfl
      | withoutMeaning hobject => cases hobject
      | _ => contradiction
  | inside hpart =>
      cases hpart with
      | _ => contradiction

/-! Headers -/

open Link

section

variable {scope : Scope} {title description : String} {properties : List (String × Document)}
  {more : List (String × Document)} {steps : Pointer} {problem : Fault.Problem}

private theorem not_faulty_type_string :
    ¬ Faulty scope (.object [("type", .string "string")]) steps problem := by
  refine not_faulty_of_absent rfl ?_ ?_ ?_
  · intro hsilent
    cases hsilent.type
  · intro value hvalue
    cases hvalue
  · decide

private theorem not_faulty_headerTypes : ¬ Faulty scope headerTypes steps problem := by
  have horderly : Orderly scope headerTypes := by
    refine ⟨rfl, ?_, .inr rfl, ?_, ?_, ?_, ?_, by decide⟩
    · intro hsilent
      rcases hsilent.others with hnone | hfalse
      · cases hnone
      · cases hfalse
    · simp [headerTypes, Document.get?, Document.members, List.lookup_cons]
    · rintro value ⟨⟩
    · rintro value ⟨⟩
    · simp [headerTypes, combiningKeywords, Document.get?, Document.members, List.lookup_cons]
  intro h
  obtain ⟨front, part, rest, -, hpart, hfaulty⟩ := horderly.exists_part h
  cases hpart with
  | member hkeyword hfound =>
      simp only [List.mem_cons, List.not_mem_nil, or_false] at hkeyword
      rcases hkeyword with rfl | rfl <;> cases hfound
  | value hkeyword hfound =>
      simp only [List.mem_cons, List.not_mem_nil, or_false] at hkeyword
      rcases hkeyword with rfl | rfl | rfl <;> cases hfound
      exact not_faulty_type_string hfaulty
  | item hkeyword hfound =>
      simp only [combiningKeywords, List.mem_cons, List.not_mem_nil, or_false] at hkeyword
      rcases hkeyword with rfl | rfl | rfl | rfl <;> cases hfound

private theorem faulty_givenHeaders (h : Faulty scope (givenHeaders properties) steps problem) :
    ∃ key value rest, steps = ["properties", key] ++ rest ∧ (key, value) ∈ properties ∧
      Faulty scope value rest problem := by
  have horderly : Orderly scope (givenHeaders properties) := by
    refine ⟨rfl, ?_, .inr rfl, ?_, ?_, ?_, ?_, ?_⟩
    · intro hsilent
      cases hsilent.required
    · simp [givenHeaders, Document.get?, Document.members, List.lookup_cons, Document.isObject,
        Document.kind]
    · rintro value ⟨⟩
      exact ⟨properties.map Prod.fst, by simp⟩
    · rintro value ⟨⟩
    · simp [givenHeaders, combiningKeywords, Document.get?, Document.members, List.lookup_cons]
    · simp [givenHeaders, Document.get?, Document.members, List.lookup_cons]
  obtain ⟨front, part, rest, rfl, hpart, hfaulty⟩ := horderly.exists_part h
  cases hpart with
  | member hkeyword hfound hmember =>
      simp only [List.mem_cons, List.not_mem_nil, or_false] at hkeyword
      rcases hkeyword with rfl | rfl <;> cases hfound
      exact ⟨_, _, _, rfl, hmember, hfaulty⟩
  | value hkeyword hfound =>
      simp only [List.mem_cons, List.not_mem_nil, or_false] at hkeyword
      rcases hkeyword with rfl | rfl | rfl <;> cases hfound
      exact absurd hfaulty not_faulty_bool
  | item hkeyword hfound =>
      simp only [combiningKeywords, List.mem_cons, List.not_mem_nil, or_false] at hkeyword
      rcases hkeyword with rfl | rfl | rfl | rfl <;> cases hfound

def unusedKeywords : List String :=
  objectKeywords ++ ["anyOf", "oneOf", "const", "required", "items", "enum", "$ref"]

/-- Of the schema of headers, only the schemas of single headers can break a rule. -/
theorem faulty_headers {schema : Document} (h : Faulty scope schema steps problem)
    (hobject : schema.isObject = true) (hkeys : ∀ key ∈ schema.keys, key ∉ unusedKeywords)
    (hallOf : schema.get? "allOf" = some (.array [headerTypes, givenHeaders properties])) :
    ∃ key value rest, steps = ["allOf", "1", "properties", key] ++ rest ∧
      (key, value) ∈ properties ∧ Faulty scope value rest problem := by
  have habsent : ∀ keyword ∈ unusedKeywords, schema.get? keyword = none := fun keyword hkeyword =>
    Document.get?_eq_none_of_not_mem fun hkey => hkeys keyword hkey hkeyword
  have hnever : ∀ {keyword : String} {value : Document}, keyword ∈ unusedKeywords →
      schema.get? keyword ≠ some value := fun hkeyword hvalue =>
    hkeys _ (Document.mem_keys_of_get? hvalue) hkeyword
  have hmap : ∀ keyword ∈ ["properties", "patternProperties"], keyword ∈ unusedKeywords := by
    decide
  have hvalue : ∀ keyword ∈ ["propertyNames", "additionalProperties", "items"],
      keyword ∈ unusedKeywords := by decide
  have hother : ∀ keyword ∈ ["items", "enum", "$ref"], keyword ∈ unusedKeywords := by decide
  have hlist : ∀ keyword ∈ "items" :: combiningKeywords,
      keyword = "allOf" ∨ keyword ∈ unusedKeywords := by decide
  have horderly : Orderly scope schema := by
    refine ⟨hobject, ?_, .inl ?_, ?_, ?_, ?_, ?_, ?_⟩
    · intro hsilent
      rcases hsilent.combined "allOf" (by decide) with hnone | hempty
      · rw [hallOf] at hnone
        cases hnone
      · rw [hallOf] at hempty
        cases hempty
    · exact fun keyword hkeyword => habsent keyword (List.mem_append_left _ hkeyword)
    · exact fun keyword hkeyword value hfound => absurd hfound (hnever (hmap keyword hkeyword))
    · exact fun value hfound => absurd hfound (hnever (by decide))
    · exact fun value hfound => absurd hfound (hnever (by decide))
    · intro keyword hkeyword value hfound
      rcases hlist keyword (List.mem_cons_of_mem _ hkeyword) with rfl | hunused
      · rw [hallOf] at hfound
        cases hfound
        rfl
      · exact absurd hfound (hnever hunused)
    · exact fun keyword hkeyword => habsent keyword (hother keyword hkeyword)
  obtain ⟨front, part, rest, rfl, hpart, hfaulty⟩ := horderly.exists_part h
  cases hpart with
  | member hkeyword hfound => exact absurd hfound (hnever (hmap _ hkeyword))
  | value hkeyword hfound => exact absurd hfound (hnever (hvalue _ hkeyword))
  | @item keyword items index value hkeyword hfound hitem =>
      rcases hlist keyword hkeyword with rfl | hunused
      · rw [hallOf] at hfound
        cases hfound
        rcases index with _ | _ | index
        · cases hitem
          exact absurd hfaulty not_faulty_headerTypes
        · cases hitem
          obtain ⟨key, value, rest, rfl, hmember, hvalue⟩ := faulty_givenHeaders hfaulty
          exact ⟨key, value, rest, rfl, hmember, hvalue⟩
        · cases hitem
      · exact absurd hfound (hnever hunused)

end

end SchemaCodec.Conversion

namespace SchemaCodec.Link

open Conversion

/-- The place of the fault, if it has one, is that of a value of the document, or would be if the
headers of its endpoint were found where the schema made of them has them. -/
def Points (document : Document) (fault : Fault) : Prop :=
  ∀ place, fault = .located place →
    (∃ steps, place.location = Location.root.down steps ∧ document.Has steps) ∨
    ∃ index key rest, document.Has (["links", index, "headerSchema", key] ++ rest) ∧
      place.location = Location.root.down
        (["links", index, "headerSchema", "allOf", "1", "properties", key] ++ rest)

variable {document : Document}

theorem points_of_not_located {fault : Fault} (h : ∀ place, fault ≠ .located place) :
    Points document fault :=
  fun place hplace => absurd hplace (h place)

theorem points_of_inside {front : Pointer} {part : Document} {fault : Fault}
    (hat : document.at? front = some part) (h : Inside (Location.root.down front) part fault) :
    Points document fault := by
  intro place hplace
  obtain ⟨steps, hlocation, hhas⟩ := h place hplace
  refine .inl ⟨front ++ steps, hlocation, ?_⟩
  rwa [Document.Has, Document.at?_append hat]

theorem points_of_inside_root {fault : Fault} (h : Inside .root document fault) :
    Points document fault :=
  fun place hplace => .inl (h place hplace)

section

variable {check : String → Except Template.Error Unit} {scope : Scope} {index : Nat}
  {links : List Document} {link : Document}

private theorem not_located_of_member {key : String} {fault : Fault}
    (h : member index link key = .error fault) (place : Fault.Located) :
    fault ≠ .located place := by
  unfold member at h
  split at h
  · cases h
  · cases h
    rintro ⟨⟩

private theorem not_located_of_memberMap {key : String} {fault : Fault}
    (h : memberMap index link key = .error fault) (place : Fault.Located) :
    fault ≠ .located place := by
  rcases error_of_bind h with hmember | ⟨value, -, hvalue⟩
  · exact not_located_of_member hmember place
  · split at hvalue
    · cases hvalue
    · cases hvalue
      rintro ⟨⟩

private theorem get?_of_member {key : String} {value : Document}
    (h : member index link key = .ok value) : link.get? key = some value := by
  unfold member at h
  split at h
  · next hvalue =>
      cases h
      exact hvalue
  · cases h

theorem get?_of_memberMap {key : String} {members : List (String × Document)}
    (h : memberMap index link key = .ok members) : link.get? key = some (.object members) := by
  obtain ⟨value, hvalue, h⟩ := exists_of_bind_eq_ok h
  split at h
  · cases h
    exact get?_of_member hvalue
  · cases h

theorem exists_template {schema : Document} (h : addressSchema check index link = .ok schema) :
    ∃ template, link.get? "href" = some (.string template) ∧ schema = addressOf template := by
  obtain ⟨value, hvalue, h⟩ := exists_of_bind_eq_ok h
  split at h
  · next template =>
      split at h
      · cases h
      · cases h
        exact ⟨template, get?_of_member hvalue, rfl⟩
  · cases h

/-! The parts of an endpoint -/

/-- Metadata and codec of a part are sound if those of its schema are. -/
theorem failsOnly_define {allowed : Fault → Prop} {part : Section}
    (hother : ∀ fault, (∀ place, fault ≠ .located place) → allowed fault)
    (hschema : ∀ fault, part.schema = .error fault → ∀ place, fault ≠ .located place)
    (hmetadata : ∀ schema, part.schema = .ok schema → ∀ fault,
      Metadata.ofSchema (Location.root.down ["links", toString index, part.key]) schema =
        .error fault → allowed fault)
    (hcodec : ∀ schema, part.schema = .ok schema →
      (compile scope true (Location.root.down ["links", toString index, part.key])
        schema).FailsOnly allowed) :
    (define scope index part).FailsOnly allowed := by
  have hregexp : ∀ cause, allowed (.regexp cause) := fun cause => hother _ (by rintro _ ⟨⟩)
  refine failsOnly_bind (failsOnly_ofExcept fun fault h => hother _ (hschema fault h))
    fun schema hresult => ?_
  have hpart : part.schema = .ok schema := gives_ofExcept.mp (gives_anything_iff.mpr hresult)
  refine failsOnly_bind (failsOnly_ofExcept (hmetadata schema hpart)) fun metadata _ => ?_
  refine failsOnly_bind (hcodec schema hpart) fun inner _ => ?_
  refine failsOnly_bind (failsOnly_brand hregexp _ inner) fun codec _ => ?_
  dsimp only
  split <;> exact failsOnly_of_ok rfl

-- The link is one of those of a document without repeated keys.
variable (hkeys : ¬ document.RepeatsKey) (hlinks : document.get? "links" = some (.array links))
  (hlink : links[index]? = some link)
include hlinks hlink

private theorem at?_of_link {key : String} {value : Document}
    (hvalue : link.get? key = some value) :
    document.at? ["links", toString index, key] = some value := by
  have harray := Document.at?_append (Document.at?_of_get? hlinks) [toString index]
  rw [Document.at?_of_getElem? hlink] at harray
  exact (Document.at?_append harray [key]).trans (Document.at?_of_get? hvalue)

include hkeys

private theorem failsOnly_define_member (key suffix : String) (heading : Option (String × String)) :
    (define scope index ⟨key, suffix, member index link key, heading⟩).FailsOnly
      (Points document) := by
  have hat : ∀ schema, member index link key = .ok schema →
      document.at? ["links", toString index, key] = some schema := fun schema hschema =>
    at?_of_link hlinks hlink (get?_of_member hschema)
  apply failsOnly_define
  · exact fun fault => points_of_not_located
  · exact fun fault => not_located_of_member
  · intro schema hschema fault hfault
    have hinside := inside_of_ofSchema (Document.not_repeatsKey_of_at? hkeys (hat _ hschema)) hfault
    exact points_of_inside (hat _ hschema) hinside
  · intro schema hschema
    have hinside := Document.not_repeatsKey_of_at? hkeys (hat _ hschema)
    exact (failsOnly_inside_compile hinside true).mono fun fault =>
      points_of_inside (hat _ hschema)

omit hkeys hlinks hlink in
/-- The schema of the address is put together so that it breaks no rule. -/
theorem failsOnly_define_address (suffix : String) (heading : Option (String × String)) :
    (define scope index ⟨"href", suffix, addressSchema check index link, heading⟩).FailsOnly
      (Points document) := by
  apply failsOnly_define
  · exact fun fault => points_of_not_located
  · intro fault h place
    rcases error_of_bind h with hmember | ⟨value, -, hvalue⟩
    · exact not_located_of_member hmember place
    · split at hvalue
      · split at hvalue
        · cases hvalue
          rintro ⟨⟩
        · cases hvalue
      · cases hvalue
        rintro ⟨⟩
  · intro schema hschema fault hfault
    obtain ⟨template, -, rfl⟩ := exists_template hschema
    cases hfault
  · intro schema hschema
    obtain ⟨template, -, rfl⟩ := exists_template hschema
    refine (failsOnly_compile scope true _ _).mono ?_
    rintro _ ⟨steps, problem, -, hfaulty⟩
    have hunstructured : ∀ key ∈ ["title", "description", "type", "const", "default"],
        key ∉ structuringKeywords := by decide
    exact absurd hfaulty (not_faulty_constant rfl hunstructured)

private theorem failsOnly_define_requestHeaders (suffix : String)
    (heading : Option (String × String)) :
    (define scope index ⟨"headerSchema", suffix, requestHeaders index link, heading⟩).FailsOnly
      (Points document) := by
  have hheaders : ∀ schema, requestHeaders index link = .ok schema →
      ∃ properties, link.get? "headerSchema" = some (.object properties) ∧
        schema = .object (headersSchema "Request Headers"
          "Request headers format as described by hyper schema headerSchema." properties) := by
    intro schema h
    obtain ⟨properties, hproperties, h⟩ := exists_of_bind_eq_ok h
    cases h
    exact ⟨properties, get?_of_memberMap hproperties, rfl⟩
  apply failsOnly_define
  · exact fun fault => points_of_not_located
  · intro fault h place
    rcases error_of_bind h with hmap | ⟨properties, -, h⟩
    · exact not_located_of_memberMap hmap place
    · cases h
  · intro schema hschema fault hfault
    obtain ⟨properties, -, rfl⟩ := hheaders schema hschema
    cases hfault
  · intro schema hschema
    obtain ⟨properties, hproperties, rfl⟩ := hheaders schema hschema
    have hat := at?_of_link hlinks hlink hproperties
    have hdistinct := Document.not_repeatsKey_of_at? hkeys hat
    refine (failsOnly_compile scope true _ _).mono ?_
    rintro _ ⟨steps, problem, rfl, hfaulty⟩
    have hunused : ∀ key ∈ ["title", "description", "allOf"], key ∉ unusedKeywords := by decide
    obtain ⟨key, value, rest, rfl, hmember, hvalue⟩ := faulty_headers hfaulty rfl hunused rfl
    have hkey := (Document.at?_append hat [key]).trans (Document.at?_of_mem hdistinct hmember)
    have hhas := hvalue.has (Document.not_repeatsKey_of_at? hkeys hkey)
    rintro _ ⟨⟩
    refine .inr ⟨toString index, key, rest, ?_, ?_⟩
    · rwa [Document.Has, show ["links", toString index, "headerSchema", key] ++ rest =
        (["links", toString index, "headerSchema"] ++ [key]) ++ rest from rfl,
        Document.at?_append hkey]
    · rfl

omit hkeys hlinks hlink in
/-- The values of headers are constants. -/
theorem failsOnly_define_responseHeaders (suffix : String) (heading : Option (String × String)) :
    (define scope index ⟨"targetHints", suffix, responseHeaders index link, heading⟩).FailsOnly
      (Points document) := by
  have hheaders : ∀ schema, responseHeaders index link = .ok schema →
      ∃ (hints : List (String × String)) (values : Document), schema = .object
        (headersSchema "Response Headers"
          "Response headers format as described by hyper schema targetHints."
          (hints.map fun entry => (entry.1, constantHeader entry.2)) ++
          [("default", values)]) := by
    intro schema h
    obtain ⟨members, -, h⟩ := exists_of_bind_eq_ok h
    obtain ⟨hints, -, h⟩ := exists_of_bind_eq_ok h
    cases h
    exact ⟨hints, _, rfl⟩
  have hhint : ∀ entry fault, hint index entry = .error fault → ∀ place, fault ≠ .located place := by
    intro entry fault h place
    unfold hint at h
    split at h
    · cases h
    · cases h
      rintro ⟨⟩
  apply failsOnly_define
  · exact fun fault => points_of_not_located
  · intro fault h place
    rcases error_of_bind h with hmap | ⟨members, -, h⟩
    · exact not_located_of_memberMap hmap place
    · rcases error_of_bind h with hhints | ⟨hints, -, h⟩
      · obtain ⟨entry, -, hentry⟩ := error_of_mapM hhints
        exact hhint entry fault hentry place
      · cases h
  · intro schema hschema fault hfault
    obtain ⟨hints, values, rfl⟩ := hheaders schema hschema
    cases hfault
  · intro schema hschema
    obtain ⟨hints, values, rfl⟩ := hheaders schema hschema
    refine (failsOnly_compile scope true _ _).mono ?_
    rintro _ ⟨steps, problem, -, hfaulty⟩
    have hunused : ∀ key ∈ ["title", "description", "allOf", "default"], key ∉ unusedKeywords := by
      decide
    obtain ⟨key, value, rest, -, hmember, hvalue⟩ := faulty_headers hfaulty rfl hunused rfl
    obtain ⟨⟨other, text⟩, -, heq⟩ := List.mem_map.mp hmember
    cases heq
    have hunstructured : ∀ key ∈ ["type", "const"], key ∉ structuringKeywords := by decide
    exact absurd hvalue (not_faulty_constant rfl hunstructured)

private theorem failsOnly_sections :
    ∀ part ∈ sections check index link, (define scope index part).FailsOnly (Points document) := by
  simp only [sections, List.forall_mem_cons]
  exact ⟨failsOnly_define_address _ _, failsOnly_define_member hkeys hlinks hlink _ _ _,
    failsOnly_define_requestHeaders hkeys hlinks hlink _ _,
    failsOnly_define_member hkeys hlinks hlink _ _ _, failsOnly_define_responseHeaders _ _,
    failsOnly_define_member hkeys hlinks hlink _ _ _, List.forall_mem_nil _⟩

end

theorem failsOnly_expand {scope : Scope} (hkeys : ¬ document.RepeatsKey) :
    (expand scope document).FailsOnly (Points document) := by
  unfold expand expandBy
  split
  · exact failsOnly_of_ok rfl
  · next links hlinks =>
      unfold expandLinks
      dsimp only
      split
      · exact failsOnly_of_ok rfl
      · apply failsOnly_reportIf
        split
        · exact failsOnly_of_ok rfl
        · next link index rest hfound =>
            have hmem : (link, index) ∈ links.zipIdx := by
              have hfirst : (link, index) ∈ implementations links := by
                rw [hfound]
                exact List.mem_cons_self ..
              exact (List.mem_filter.mp hfirst).1
            refine failsOnly_bind (failsOnly_of_ok rfl) fun _ _ => failsOnly_each ?_
            exact failsOnly_sections hkeys hlinks (List.mem_zipIdx_iff_getElem?.mp hmem)
  · rintro _ ⟨⟩
    exact points_of_not_located (by rintro _ ⟨⟩)

end SchemaCodec.Link
