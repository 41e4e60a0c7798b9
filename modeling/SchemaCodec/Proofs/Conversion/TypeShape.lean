import SchemaCodec.Proofs.Conversion.Faults

namespace SchemaCodec.Conversion

/-! The types `object` and `array` leave their codecs to the keywords about properties and items,
and tell from the keywords alone whether there will be one. -/

variable {convert : Converter} {scope : Scope} {location : Location} {schema : Document}

/-! Predictions -/

private theorem hasObjectShape_eq_false_iff :
    hasObjectShape schema = false ↔
      schema.get? "properties" = none ∧ schema.get? "patternProperties" = none ∧
        schema.get? "propertyNames" = none ∧
        (schema.get? "additionalProperties" = none ∨
          schema.get? "additionalProperties" = some (.bool false)) := by
  have hothers : (schema.get? "additionalProperties").any (!·.isFalse) = false ↔
      schema.get? "additionalProperties" = none ∨
        schema.get? "additionalProperties" = some (.bool false) := by
    cases schema.get? "additionalProperties" with
    | none => simp
    | some value => cases value <;> simp [Document.isFalse]
  simp only [hasObjectShape, Bool.or_eq_false_iff, Document.has_eq_false_iff, hothers, and_assoc]

private theorem hasArrayShape_eq_false_iff :
    hasArrayShape schema = false ↔
      schema.get? "items" = none ∨ schema.get? "items" = some (.bool true) := by
  unfold hasArrayShape
  cases schema.get? "items" with
  | none => simp
  | some value => cases value <;> simp [Document.isTrue]

private theorem result_fromType {name : String} (htype : schema.get? "type" = some (.string name))
    (hname : name ∈ knownTypes) :
    (fromType scope schema).result = .ok (unite (typeCodecs scope schema name)) := by
  have hgives : (fromTypeName scope schema (.string name) name).Gives anything
      (typeCodecs scope schema name) := gives_fromTypeName_of_known (fun _ => trivial) hname
  apply gives_anything_iff.mp
  refine gives_fromType.mpr (.inr ⟨_, [typeCodecs scope schema name], htype, ?_, ?_⟩)
  · exact .cons hgives .nil
  · rw [List.flatten_singleton]

private theorem fromType_object_eq_nil_iff (htype : schema.get? "type" = some (.string "object")) :
    (fromType scope schema).result = .ok [] ↔ hasObjectShape schema = true := by
  rw [result_fromType htype (by decide), Except.ok.injEq, unite_eq_nil_iff]
  change (if hasObjectShape schema then [] else [Codec.unknownRecord]) = [] ↔ _
  simp

private theorem fromType_array_eq_nil_iff (htype : schema.get? "type" = some (.string "array")) :
    (fromType scope schema).result = .ok [] ↔ hasArrayShape schema = true := by
  rw [result_fromType htype (by decide), Except.ok.injEq, unite_eq_nil_iff]
  change (if hasArrayShape schema then [] else [Codec.unknownArray]) = [] ↔ _
  simp

/-- The only keyword about properties that could contribute a codec is an empty map of patterns. -/
structure EmptyPatterns (schema : Document) : Prop where
  patterns : schema.get? "patternProperties" = some (.object [])
  properties : schema.get? "properties" = none
  names : schema.get? "propertyNames" = none
  others : schema.get? "additionalProperties" = none ∨
    schema.get? "additionalProperties" = some (.bool false)

section Properties

variable {properties names patterns others : List Codec}
  (hproperties : (fromProperties convert location schema).result = .ok properties)
  (hnames : (fromPropertyNames convert location schema).result = .ok names)
  (hpatterns : (fromPatternProperties convert location schema).result = .ok patterns)
  (hothers : (fromAdditionalProperties convert location schema).result = .ok others)
include hproperties hnames hpatterns hothers

private theorem shape_eq_nil_iff :
    properties ++ names ++ patterns ++ others = [] ↔
      schema.get? "properties" = none ∧ schema.get? "propertyNames" = none ∧
        (schema.get? "patternProperties" = none ∨
          schema.get? "patternProperties" = some (.object [])) ∧
        (schema.get? "additionalProperties" = none ∨
          schema.get? "additionalProperties" = some (.bool false)) := by
  simp only [List.append_eq_nil_iff, and_assoc,
    fromProperties_eq_nil_iff (gives_anything_iff.mpr hproperties),
    fromPropertyNames_eq_nil_iff (gives_anything_iff.mpr hnames),
    fromPatternProperties_eq_nil_iff (gives_anything_iff.mpr hpatterns),
    fromAdditionalProperties_eq_nil_iff (gives_anything_iff.mpr hothers)]
  refine and_congr_right fun hnone => ?_
  simp [hnone, Document.members]

private theorem hasObjectShape_of_shape (h : properties ++ names ++ patterns ++ others ≠ []) :
    hasObjectShape schema = true := by
  rw [← Bool.not_eq_false, hasObjectShape_eq_false_iff]
  rintro ⟨hnone, hmap, hdomain, hrest⟩
  exact h ((shape_eq_nil_iff hproperties hnames hpatterns hothers).mpr
    ⟨hnone, hdomain, .inl hmap, hrest⟩)

private theorem hasObjectShape_and_nil_iff :
    hasObjectShape schema = true ∧ properties ++ names ++ patterns ++ others = [] ↔
      EmptyPatterns schema := by
  rw [← Bool.not_eq_false, hasObjectShape_eq_false_iff,
    shape_eq_nil_iff hproperties hnames hpatterns hothers]
  constructor
  · rintro ⟨hshape, hnone, hdomain, hmap | hempty, hrest⟩
    · exact absurd ⟨hnone, hmap, hdomain, hrest⟩ hshape
    · exact ⟨hempty, hnone, hdomain, hrest⟩
  · intro h
    refine ⟨?_, h.properties, h.names, .inr h.patterns, h.others⟩
    rintro ⟨-, hmap, -⟩
    rw [h.patterns] at hmap
    cases hmap

end Properties

/-! Rejections -/

private theorem down_eq_self_iff {steps : Pointer} : location.down steps = location ↔ steps =
    [] := by
  rw [Location.down, Location.mk.injEq]
  simp

private theorem Part.steps_ne_nil {part : Document} {steps : Pointer} (h : Part schema steps part) :
    steps ≠ [] := by
  cases h <;> exact List.cons_ne_nil _ _

private theorem ne_located_here {steps : Pointer} (hsteps : steps ≠ [])
    (problem other : Fault.Problem) :
    Fault.located ⟨location.down steps, problem⟩ ≠ .located ⟨location, other⟩ := by
  intro h
  injection h with h
  exact hsteps (down_eq_self_iff.mp (Fault.Located.mk.inj h).1)

private theorem FailsOnly.result_ne {conversion : Conversion α} {fault : Fault}
    (h : conversion.FailsOnly (· ≠ fault)) : conversion.result ≠ .error fault :=
  fun hresult => h fault hresult rfl

/-- What the keywords of a schema, and the schemas inside it, can break is not at the place of the
schema itself. -/
theorem failsOnly_elsewhere (problem : Fault.Problem) :
    (contributions scope (compile scope false) location schema).FailsOnly
      (· ≠ .located ⟨location, problem⟩) := by
  apply failsOnly_contributions
  · intro steps found hsteps _
    exact ne_located_here hsteps found problem
  · intro steps part hpart
    refine (failsOnly_compile scope false (location.down steps) part).mono ?_
    rintro _ ⟨rest, found, rfl, -⟩
    rw [show (location.down steps).down rest = location.down (steps ++ rest) by
      simp only [Location.down, List.append_assoc]]
    exact ne_located_here (List.append_ne_nil_of_left_ne_nil hpart.steps_ne_nil rest) found problem

private theorem compose_withoutMeaning_iff {codecs : List Codec} :
    (compose location schema codecs).result =
        .error (.located ⟨location, .withoutMeaning schema⟩) ↔
      codecs = [] ∧ (Constraint.isConstrained schema || isAnnotation schema) = false := by
  unfold compose
  split
  · split
    · next h => simp [h, Conversion.pure]
    · next h => simpa [fail, stop] using h
  · simp [Conversion.pure]
  · next hnil _ => exact ⟨fun h => (by cases h), fun h => (hnil h.1).elim⟩

private theorem compile_withoutMeaning_iff {isTop : Bool} {members : List (String × Document)}
    (hschema : schema = .object members) :
    (compile scope isTop location schema).result =
        .error (.located ⟨location, .withoutMeaning schema⟩) ↔
      schema.get? "$ref" = none ∧
        (contributions scope (compile scope false) location schema).result = .ok [] ∧
        (Constraint.isConstrained schema || isAnnotation schema) = false := by
  have hhere : ∀ steps problem, steps ≠ [] → Breaks scope schema steps problem →
      Fault.located ⟨location.down steps, problem⟩ ≠
        .located ⟨location, .withoutMeaning schema⟩ :=
    fun steps problem hsteps _ => ne_located_here hsteps problem _
  subst hschema
  rw [compile_unfold, compileBy]
  constructor
  · intro h
    rcases result_bind_eq_error_iff.mp h with hkeywords | ⟨_, -, h⟩
    · exact absurd hkeywords (failsOnly_reportKeywords isTop).result_ne
    rcases result_bind_eq_error_iff.mp h with hreference | ⟨reference, hreference, h⟩
    · exact absurd hreference (failsOnly_referenceAt hhere).result_ne
    have htext := gives_referenceAt.mp (gives_anything_iff.mpr hreference)
    cases reference with
    | some text => exact absurd h (failsOnly_fromReference hhere htext).result_ne
    | none =>
        rcases result_bind_eq_error_iff.mp h with hrequire | ⟨_, -, h⟩
        · cases hrequire
        rcases result_bind_eq_error_iff.mp h with hinside | ⟨codecs, hcodecs, h⟩
        · exact absurd hinside (failsOnly_elsewhere _).result_ne
        obtain ⟨rfl, hmeaning⟩ := compose_withoutMeaning_iff.mp h
        exact ⟨htext, hcodecs, hmeaning⟩
  · rintro ⟨href, hcodecs, hmeaning⟩
    have hkeywords : (reportKeywords isTop (.object members)).Gives anything () :=
      gives_reportKeywords.mpr ⟨fun _ _ _ => trivial, fun _ _ => trivial⟩
    have hreference : (referenceAt location (.object members)).Gives anything none :=
      gives_referenceAt.mpr href
    refine result_bind_eq_error_iff.mpr (.inr ⟨(), hkeywords.result, ?_⟩)
    refine result_bind_eq_error_iff.mpr (.inr ⟨none, hreference.result, ?_⟩)
    refine result_bind_eq_error_iff.mpr (.inr ⟨(), rfl, ?_⟩)
    refine result_bind_eq_error_iff.mpr (.inr ⟨[], hcodecs, ?_⟩)
    exact compose_withoutMeaning_iff.mpr ⟨rfl, hmeaning⟩

/-! The object types whose keywords contribute nothing -/

/-- The type leaves its codec to the patterns, of which there are none, and no other keyword
contributes or restricts anything. -/
structure Mute (schema : Document) : Prop extends EmptyPatterns schema where
  type : schema.get? "type" = some (.string "object")
  reference : schema.get? "$ref" = none
  required : schema.get? "required" = none
  items : schema.get? "items" = none
  enum : schema.get? "enum" = none ∨ schema.get? "enum" = some (.array [])
  const : schema.get? "const" = none
  combined : ∀ keyword ∈ combiningKeywords,
    schema.get? keyword = none ∨ schema.get? keyword = some (.array [])
  unconstrained : Constraint.isConstrained schema = false

private theorem isAnnotation_eq_false_of_type {type : Document}
    (htype : schema.get? "type" = some type) :
    isAnnotation schema = false := by
  rw [← Bool.not_eq_true]
  intro h
  have hkey := List.all_eq_true.mp h "type" (Document.mem_keys_of_get? htype)
  revert hkey
  decide

private theorem not_contributions_array (htype : schema.get? "type" = some (.string "array")) :
    (contributions scope convert location schema).result ≠ .ok [] := by
  intro h
  have hsilent := silent_of_contributions h
  have hshape := (fromType_array_eq_nil_iff htype).mp hsilent.type
  rw [hasArrayShape_eq_false_iff.mpr hsilent.items] at hshape
  cases hshape

/-- Items only stand beside arrays, even where they contribute nothing. -/
theorem items_of_contributions (htype : schema.get? "type" = some (.string "object"))
    (h : (contributions scope convert location schema).result = .ok []) :
    schema.get? "items" = none := by
  obtain ⟨parts, -⟩ := gives_contributions.mp (gives_anything_iff.mpr h)
  rcases gives_fromItems.mp (gives_fromArray.mp parts.gives_array).1 with ⟨hnone, -⟩ | ⟨harray, -⟩
  · exact hnone
  · rw [htype] at harray
    simp at harray

private theorem patterns_of_contributions (htype : schema.get? "type" = some (.string "object"))
    (h : (contributions scope convert location schema).result = .ok []) : EmptyPatterns schema := by
  have hsilent := silent_of_contributions h
  have hshape := (fromType_object_eq_nil_iff htype).mp hsilent.type
  refine ⟨?_, hsilent.properties, hsilent.names, hsilent.others⟩
  rcases hsilent.patterns with hnone | hempty
  · rw [hasObjectShape_eq_false_iff.mpr ⟨hsilent.properties, hnone, hsilent.names,
      hsilent.others⟩] at hshape
    cases hshape
  · exact hempty

private theorem Mute.result_contributions (h : Mute schema) :
    (contributions scope convert location schema).result = .ok [] := by
  have hshape : hasObjectShape schema = true := by
    rw [← Bool.not_eq_false, hasObjectShape_eq_false_iff, h.patterns]
    simp
  have hpatterns : (fromPatternProperties convert location schema).Gives anything [] := by
    refine gives_fromPatternProperties.mpr
      (.inr ⟨[], [], [], h.type, h.patterns, trivial, ?_, ?_, rfl⟩)
    · rw [h.properties]
      exact gives_convertMap.mpr .nil
    · exact gives_convertMap.mpr .nil
  have hothers : (fromAdditionalProperties convert location schema).Gives anything [] := by
    rcases h.others with hnone | hfalse
    · exact gives_fromAdditionalProperties.mpr (.inl ⟨hnone, rfl⟩)
    · exact gives_fromAdditionalProperties.mpr (.inr (.inl ⟨h.type, hfalse, rfl⟩))
  have hobject : (fromObject convert location schema).Gives anything [] :=
    gives_fromObject.mpr ⟨[], [], [], [], [],
      gives_fromProperties.mpr (.inl ⟨h.properties, rfl⟩),
      gives_fromPropertyNames.mpr (.inl ⟨h.names, rfl⟩), hpatterns, hothers,
      gives_fromRequired.mpr (.inl ⟨h.required, rfl⟩), rfl⟩
  have henum : (fromEnum scope location schema).Gives anything [] := by
    rcases h.enum with hnone | hempty
    · exact gives_fromEnum.mpr (.inl ⟨hnone, rfl⟩)
    · exact gives_fromEnum.mpr (.inr ⟨[], [], hempty, gives_each.mpr .nil, rfl⟩)
  have hall : ∀ keyword ∈ combiningKeywords,
      (fromAll convert keyword location schema).Gives anything [] := by
    intro keyword hkeyword
    rcases h.combined keyword hkeyword with hnone | hempty
    · exact gives_fromAll.mpr (.inl ⟨hnone, rfl⟩)
    · exact gives_fromAll.mpr (.inr ⟨[], hempty, gives_each.mpr .nil⟩)
  apply gives_anything_iff.mp
  refine gives_contributions.mpr ⟨⟨[], [], [], [], [], [], [], [], ?_, hobject, ?_, henum, ?_,
    hall "allOf" (by decide), hall "anyOf" (by decide), hall "oneOf" (by decide)⟩, rfl⟩
  · exact gives_anything_iff.mpr ((fromType_object_eq_nil_iff h.type).mpr hshape)
  · exact gives_fromArray.mpr ⟨gives_fromItems.mpr (.inl ⟨h.items, rfl⟩), fun _ => trivial⟩
  · exact gives_fromConst.mpr (.inl ⟨h.const, rfl⟩)

private theorem compile_withoutMeaning_iff_mute {isTop : Bool}
    (htype : schema.get? "type" = some (.string "object") ∨
      schema.get? "type" = some (.string "array")) :
    (compile scope isTop location schema).result =
        .error (.located ⟨location, .withoutMeaning schema⟩) ↔ Mute schema := by
  obtain ⟨type, hpresent⟩ : ∃ type, schema.get? "type" = some type :=
    htype.elim (fun h => ⟨_, h⟩) fun h => ⟨_, h⟩
  obtain ⟨members, hschema⟩ : ∃ members, schema = .object members := by
    cases schema with
    | object members => exact ⟨members, rfl⟩
    | _ => cases hpresent
  rw [compile_withoutMeaning_iff hschema, isAnnotation_eq_false_of_type hpresent, Bool.or_false]
  constructor
  · rintro ⟨href, hnil, hconstrained⟩
    rcases htype with hobject | harray
    · have hsilent := silent_of_contributions hnil
      exact ⟨patterns_of_contributions hobject hnil, hobject, href, hsilent.required,
        items_of_contributions hobject hnil, hsilent.enum, hsilent.const, hsilent.combined,
        hconstrained⟩
    · exact absurd hnil (not_contributions_array harray)
  · intro h
    exact ⟨h.reference, h.result_contributions, h.unconstrained⟩

/-- Where the keywords about properties succeed, the prediction that they contribute is right but
for an empty map of patterns. About items it is always right. So a schema of one of the two types is
only rejected as one without a meaning if it is mute. -/
theorem types_predict_shapes (scope : Scope) (location : Location) (schema : Document) :
    (schema.get? "type" = some (.string "object") →
      ((fromType scope schema).result = .ok [] ↔ hasObjectShape schema = true) ∧
      ∀ convert properties names patterns others,
        (fromProperties convert location schema).result = .ok properties →
        (fromPropertyNames convert location schema).result = .ok names →
        (fromPatternProperties convert location schema).result = .ok patterns →
        (fromAdditionalProperties convert location schema).result = .ok others →
        (hasObjectShape schema = true ↔
          properties ++ names ++ patterns ++ others ≠ [] ∨ EmptyPatterns schema) ∧
        (EmptyPatterns schema → properties ++ names ++ patterns ++ others = [])) ∧
    (schema.get? "type" = some (.string "array") → ∀ convert codecs,
      (fromItems convert location schema).result = .ok codecs →
      ((fromType scope schema).result = .ok [] ↔ codecs ≠ [])) ∧
    (schema.get? "type" = some (.string "object") ∨ schema.get? "type" = some (.string "array") →
      ∀ isTop, (compile scope isTop location schema).result =
        .error (.located ⟨location, .withoutMeaning schema⟩) ↔ Mute schema) := by
  refine ⟨fun htype => ⟨fromType_object_eq_nil_iff htype, ?_⟩, fun htype => ?_, ?_⟩
  · intro convert properties names patterns others hproperties hnames hpatterns hothers
    have hempty := hasObjectShape_and_nil_iff hproperties hnames hpatterns hothers
    refine ⟨⟨fun hshape => ?_, ?_⟩, fun h => (hempty.mpr h).2⟩
    · by_cases hnil : properties ++ names ++ patterns ++ others = []
      · exact .inr (hempty.mp ⟨hshape, hnil⟩)
      · exact .inl hnil
    · rintro (hsome | hnone)
      · exact hasObjectShape_of_shape hproperties hnames hpatterns hothers hsome
      · exact (hempty.mpr hnone).1
  · intro convert codecs hcodecs
    rw [fromType_array_eq_nil_iff htype, ← Bool.not_eq_false, hasArrayShape_eq_false_iff, ne_eq,
      fromItems_eq_nil_iff (gives_anything_iff.mpr hcodecs)]
  · exact fun htype isTop => compile_withoutMeaning_iff_mute htype

def plainScope : Scope :=
  ⟨false, ⟨"", "", [], 0, ""⟩⟩

def bannedSchema : Document :=
  .object [("additionalProperties", .bool false), ("anyOf", .array []), ("type", .string "object"),
    ("patternProperties", .object [])]

def rowsSchema : Document :=
  .object [("type", .string "array"), ("items", .object [("type", .string "string")])]

theorem types_predict_shapes_bannedSchema :
    Mute bannedSchema ∧ hasObjectShape bannedSchema = true ∧
      (compile plainScope true .root bannedSchema).result =
        .error (.located ⟨.root, .withoutMeaning bannedSchema⟩) ∧
      (fromItems (compile plainScope false) .root rowsSchema).result = .ok [.array .string] ∧
      (fromType plainScope rowsSchema).result = .ok [] := by
  have hempty : EmptyPatterns bannedSchema := ⟨rfl, rfl, rfl, .inr rfl⟩
  have hmute : Mute bannedSchema := by
    refine ⟨hempty, rfl, rfl, rfl, rfl, .inl rfl, rfl, ?_, rfl⟩
    simp only [combiningKeywords, List.forall_mem_cons]
    exact ⟨.inl rfl, .inr rfl, .inl rfl, List.forall_mem_nil _⟩
  obtain ⟨hshape, -, hcompile⟩ := types_predict_shapes plainScope .root bannedSchema
  obtain ⟨-, hrows, -⟩ := types_predict_shapes plainScope .root rowsSchema
  refine ⟨hmute, ?_, (hcompile (.inl rfl) true).mpr hmute, rfl, ?_⟩
  · obtain ⟨-, hshape⟩ := hshape rfl
    exact (hshape (compile plainScope false) _ _ _ _ rfl rfl rfl rfl).1.mpr (.inr hempty)
  · exact (hrows rfl (compile plainScope false) _ rfl).mpr (List.cons_ne_nil _ _)

/-- An object type with an empty map of patterns: the type counts on a codec from the keywords about
properties, these contribute none, and the schema is rejected. -/
theorem empty_patterns_leave_objects_without_codec :
    ∃ schema : Document,
      schema = .object [("type", .string "object"), ("patternProperties", .object [])] ∧
      hasObjectShape schema = true ∧
      (fromObject (compile plainScope false) .root schema).result = .ok [] ∧
      (compile plainScope true .root schema).result =
        .error (.located ⟨.root, .withoutMeaning schema⟩) :=
  ⟨_, rfl, rfl, rfl, rfl⟩

end SchemaCodec.Conversion
