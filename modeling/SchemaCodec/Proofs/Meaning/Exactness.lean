import SchemaCodec.Proofs.Meaning.Coverage
import SchemaCodec.Proofs.Meaning.Fragment

namespace SchemaCodec.Conversion

open Codec (Surroundings)
open Document (Rules)

/-! On the exact fragment a codec accepts nothing but what its schema validates. -/

variable {allowed : Event → Prop} {scope : Scope} {convert : Converter} {location : Location}
  {schema value : Document} {surroundings : Surroundings} {rules : Rules}

/-! Types -/

private theorem hasType_of_accepts {name : String} {codec : Codec}
    (hname : name ∈ Document.exactTypes) (hcodec : codec ∈ typeCodecs scope schema name)
    (h : codec.Accepts surroundings value) : value.HasType name := by
  simp only [Document.exactTypes, List.mem_cons, List.not_mem_nil, or_false] at hname
  rcases hname with rfl | rfl | rfl | rfl | rfl | rfl
  · cases List.mem_singleton.mp hcodec
    exact Codec.accepts_string.mp h
  · cases List.mem_singleton.mp hcodec
    exact Codec.accepts_number.mp h
  · cases List.mem_singleton.mp hcodec
    exact Codec.accepts_boolean.mp h
  · cases List.mem_singleton.mp hcodec
    exact accepts_nullOf.mp h
  · simp only [typeCodecs] at hcodec
    split at hcodec
    · cases hcodec
    · cases List.mem_singleton.mp hcodec
      exact Codec.accepts_unknownArray.mp h
  · simp only [typeCodecs] at hcodec
    split at hcodec
    · cases hcodec
    · cases List.mem_singleton.mp hcodec
      exact Codec.accepts_unknownRecord.mp h

/-- Where the type of a schema is left to its other keywords, these see to it. -/
structure Shapes (schema value : Document) : Prop where
  object : hasObjectShape schema = true → value.HasType "object"
  array : hasArrayShape schema = true → value.HasType "array"

private theorem type_of_accepts {codecs : List Codec} {type : Document} (hexact : schema.ExactHere)
    (h : (fromType scope schema).Gives allowed codecs) (hshapes : Shapes schema value)
    (htype : schema.get? "type" = some type)
    (haccepts : ∀ codec ∈ codecs, codec.Accepts surroundings value) :
    ∃ name, .string name ∈ type.oneOrMany ∧ value.HasType name := by
  rcases gives_fromType.mp h with ⟨hnone, -⟩ | ⟨found, parts, hfound, hparts, rfl⟩
  · rw [htype] at hnone
    cases hnone
  · cases htype.symm.trans hfound
    rcases forall_mem_unite_accepts.mp haccepts with hnil | ⟨codec, hcodec, haccepted⟩
    · obtain ⟨name, hname⟩ := List.exists_mem_of_ne_nil _ (hexact.type type htype).1
      obtain ⟨text, -, rfl⟩ := hexact.known_type htype hname
      obtain ⟨part, hpart, hgives⟩ := exists_right_of_forall₂ hparts hname
      have hempty : part = [] := List.flatten_eq_nil_iff.mp hnil part hpart
      have hcodecs : part = typeCodecs scope schema text := typeCodecs_of_gives hgives
      refine ⟨text, hname, ?_⟩
      rw [hempty] at hcodecs
      rcases typeCodecs_eq_nil hcodecs.symm with ⟨rfl, hshape⟩ | ⟨rfl, hshape⟩
      · exact hshapes.array hshape
      · exact hshapes.object hshape
    · obtain ⟨part, hpart, hmember⟩ := List.mem_flatten.mp hcodec
      obtain ⟨name, hname, hgives⟩ := exists_left_of_forall₂ hparts hpart
      obtain ⟨text, htext, rfl⟩ := hexact.known_type htype hname
      have hcodecs : part = typeCodecs scope schema text := typeCodecs_of_gives hgives
      rw [hcodecs] at hmember
      exact ⟨text, hname, hasType_of_accepts htext hmember haccepted⟩

private theorem object_of_accepts {codecs : List Codec} (hexact : schema.ExactHere)
    (h : (fromObject convert location schema).Gives allowed codecs)
    (haccepts : ∀ codec ∈ codecs, codec.Accepts surroundings value)
    (hshape : hasObjectShape schema = true) : value.HasType "object" := by
  obtain ⟨properties, names, patterns, others, required, hproperties, -, -, hothers, -, rfl⟩ :=
    gives_fromObject.mp h
  rw [List.forall_mem_append, forall_mem_intersect_accepts] at haccepts
  simp only [List.forall_mem_append] at haccepts
  obtain ⟨⟨⟨⟨haccepted, -⟩, -⟩, hrecords⟩, -⟩ := haccepts
  have hpatterns : schema.get? "patternProperties" = none := hexact.absent (by decide)
  have hnames : schema.get? "propertyNames" = none := hexact.absent (by decide)
  rcases gives_fromProperties.mp hproperties with ⟨hnone, -⟩ | ⟨_, parts, -, -, -, rfl⟩
  · rcases gives_fromAdditionalProperties.mp hothers with
      ⟨habsent, -⟩ | ⟨-, hfalse, -⟩ | ⟨_, _, -, -, -, -, rfl⟩
    · simp [hasObjectShape, Document.has, hpatterns, hnames, hnone, habsent] at hshape
    · cases hexact.additional _ hfalse
    · rw [List.forall_mem_singleton, Codec.accepts_record] at hrecords
      obtain ⟨members, hmembers, -⟩ := hrecords
      exact ⟨members, hmembers⟩
  · rw [List.forall_mem_singleton, accepts_propertiesCodec] at haccepted
    exact haccepted.1

private theorem array_of_accepts {codecs : List Codec}
    (h : (fromItems convert location schema).Gives allowed codecs)
    (haccepts : ∀ codec ∈ codecs, codec.Accepts surroundings value)
    (hshape : hasArrayShape schema = true) : value.HasType "array" := by
  rcases gives_fromItems.mp h with ⟨hnone, -⟩ | ⟨-, hitems⟩
  · simp [hasArrayShape, hnone] at hshape
  · rcases hitems with ⟨htrue, -⟩ | ⟨-, rfl⟩ | ⟨_, _, -, -, -, rfl⟩ | ⟨_, _, -, -, -, -, rfl⟩
    · simp [hasArrayShape, htrue, Document.isTrue] at hshape
    · rw [List.forall_mem_singleton, Codec.accepts_tuple] at haccepts
      obtain ⟨items, hitems, -⟩ := haccepts
      exact ⟨items, hitems⟩
    · rw [List.forall_mem_singleton, Codec.accepts_tuple] at haccepts
      obtain ⟨items, hitems, -⟩ := haccepts
      exact ⟨items, hitems⟩
    · rw [List.forall_mem_singleton, Codec.accepts_array] at haccepts
      obtain ⟨items, hitems, -⟩ := haccepts
      exact ⟨items, hitems⟩

/-! Schemas below a schema -/

/-- The schemas below a schema validate what their codecs accept. -/
def Reflects (allowed : Event → Prop) (convert : Converter) (surroundings : Surroundings)
    (rules : Rules) (schema : Document) : Prop :=
  ∀ part ∈ schema.subschemas, ∀ place codec, (convert place part).Gives allowed codec →
    ∀ piece, codec.Accepts surroundings piece → part.Validates rules .standard piece

private theorem validates_property {codecs : List Codec} {map part piece : Document} {key : String}
    (hexact : schema.ExactHere) (hreflects : Reflects allowed convert surroundings rules schema)
    (h : (fromProperties convert location schema).Gives allowed codecs)
    (haccepts : ∀ codec ∈ codecs, codec.Accepts surroundings value)
    (hmap : schema.get? "properties" = some map) (hpart : (key, part) ∈ map.members)
    (hpiece : value.get? key = some piece) : part.Validates rules .standard piece := by
  rcases gives_fromProperties.mp h with ⟨hnone, -⟩ | ⟨members, parts, -, hmembers, hparts, rfl⟩
  · rw [hmap] at hnone
    cases hnone
  · cases hmap.symm.trans hmembers
    obtain ⟨codec, hcodec, hkey, hgives⟩ :=
      exists_right_of_forall₂ (gives_convertMap.mp hparts) hpart
    rw [List.forall_mem_singleton, accepts_propertiesCodec] at haccepts
    have hfound : value.get? codec.1 = some piece := by
      rw [hkey]
      exact hpiece
    exact hreflects part
      (Document.mem_subschemas_of_map (hexact.absent (by decide)) (.inl rfl) hmap hpart) _ _
      hgives piece (haccepts.2 codec hcodec piece hfound)

private theorem validates_additionalProperty {codecs : List Codec} {part piece : Document}
    {key : String} (hexact : schema.ExactHere)
    (hreflects : Reflects allowed convert surroundings rules schema)
    (h : (fromAdditionalProperties convert location schema).Gives allowed codecs)
    (haccepts : ∀ codec ∈ codecs, codec.Accepts surroundings value)
    (hpart : schema.get? "additionalProperties" = some part)
    (hpiece : (key, piece) ∈ value.members) : part.Validates rules .standard piece := by
  rcases gives_fromAdditionalProperties.mp h with
    ⟨hnone, -⟩ | ⟨-, hfalse, -⟩ | ⟨found, codec, -, hfound, -, hgives, rfl⟩
  · rw [hpart] at hnone
    cases hnone
  · cases hexact.additional _ hfalse
  · cases hpart.symm.trans hfound
    rw [List.forall_mem_singleton, Codec.accepts_record] at haccepts
    obtain ⟨members, rfl, hmembers⟩ := haccepts
    exact hreflects part
      (Document.mem_subschemas_of_value (hexact.absent (by decide)) (.inr rfl) hpart) _ _ hgives
      piece (hmembers _ hpiece).2

private theorem validates_item {codecs : List Codec} {part piece : Document} {items : List Document}
    (hexact : schema.ExactHere) (hreflects : Reflects allowed convert surroundings rules schema)
    (h : (fromItems convert location schema).Gives allowed codecs)
    (haccepts : ∀ codec ∈ codecs, codec.Accepts surroundings (.array items))
    (hpart : schema.get? "items" = some part) (hpiece : piece ∈ items) :
    part.Validates rules .standard piece := by
  rcases gives_fromItems.mp h with ⟨hnone, -⟩ | ⟨-, hitems⟩
  · rw [hpart] at hnone
    cases hnone
  · rcases hitems with ⟨htrue, -⟩ | ⟨-, rfl⟩ | ⟨schemas, _, hschemas, -⟩ |
      ⟨found, codec, hfound, -, hlist, hgives, rfl⟩
    · cases hpart.symm.trans htrue
      exact Document.validates_bool.mpr rfl
    · rw [List.forall_mem_singleton, Codec.accepts_tuple] at haccepts
      obtain ⟨found, hfound, hempty⟩ := haccepts
      cases hfound
      cases hempty
      cases hpiece
    · exact absurd rfl (hexact.items _ hschemas).2
    · cases hpart.symm.trans hfound
      rw [List.forall_mem_singleton, Codec.accepts_array] at haccepts
      obtain ⟨found, hitems, haccepted⟩ := haccepts
      cases hitems
      exact hreflects part
        (Document.mem_subschemas_of_item (hexact.absent (by decide)) hpart hlist) _ _ hgives piece
        (haccepted piece hpiece)

private theorem validates_allOf {codecs : List Codec} {list part : Document}
    (hexact : schema.ExactHere) (hreflects : Reflects allowed convert surroundings rules schema)
    (h : (fromAll convert "allOf" location schema).Gives allowed codecs)
    (haccepts : ∀ codec ∈ codecs, codec.Accepts surroundings value)
    (hlist : schema.get? "allOf" = some list) (hpart : part ∈ list.items) :
    part.Validates rules .standard value := by
  rcases gives_fromAll.mp h with ⟨hnone, -⟩ | ⟨schemas, hschemas, hgives⟩
  · rw [hlist] at hnone
    cases hnone
  · cases hlist.symm.trans hschemas
    obtain ⟨codec, hcodec, place, hplace⟩ :=
      exists_right_of_forall₂ (gives_of_convertList hgives) hpart
    exact hreflects part
      (Document.mem_subschemas_of_list (hexact.absent (by decide)) (.inl rfl) hlist hpart) _ _
      hplace value (haccepts codec hcodec)

private theorem validates_anyOf {codecs : List Codec} {list : Document} (hexact : schema.ExactHere)
    (hreflects : Reflects allowed convert surroundings rules schema)
    (h : (fromAll convert "anyOf" location schema).Gives allowed codecs)
    (haccepts : ∀ codec ∈ unite codecs, codec.Accepts surroundings value)
    (hlist : schema.get? "anyOf" = some list) :
    ∃ part ∈ list.items, part.Validates rules .standard value := by
  rcases forall_mem_unite_accepts.mp haccepts with rfl | ⟨codec, hcodec, haccepted⟩
  · rw [absent_of_fromAll_nil hexact (by decide) h] at hlist
    cases hlist
  · rcases gives_fromAll.mp h with ⟨hnone, -⟩ | ⟨schemas, hschemas, hgives⟩
    · rw [hlist] at hnone
      cases hnone
    · cases hlist.symm.trans hschemas
      obtain ⟨part, hpart, place, hplace⟩ :=
        exists_left_of_forall₂ (gives_of_convertList hgives) hcodec
      have hsub := Document.mem_subschemas_of_list (hexact.absent (by decide)) (.inr (.inl rfl))
        hlist hpart
      exact ⟨part, hpart, hreflects part hsub _ _ hplace value haccepted⟩

/-! Values -/

private theorem enum_of_accepts {codecs : List Codec} {list : Document} (hexact : schema.ExactHere)
    (h : (fromEnum scope location schema).Gives allowed codecs)
    (haccepts : ∀ codec ∈ codecs, codec.Accepts surroundings value)
    (hlist : schema.get? "enum" = some list) : ∃ item ∈ list.items, item.Same value := by
  rcases gives_fromEnum.mp h with ⟨hnone, -⟩ | ⟨values, parts, hvalues, hparts, rfl⟩
  · rw [hlist] at hnone
    cases hnone
  · cases hlist.symm.trans hvalues
    have hmembers := forall₂_zipIdx (gives_each.mp hparts)
    rcases forall_mem_unite_accepts.mp haccepts with rfl | ⟨codec, hcodec, haccepted⟩
    · exact absurd (List.length_eq_zero_iff.mp hmembers.length_eq) (hexact.enum _ hlist).1
    · obtain ⟨item, hitem, index, hgives⟩ := exists_left_of_forall₂ hmembers hcodec
      exact ⟨item, hitem,
        (accepts_of_valueCodec? (valueCodec?_of_gives_enumMember hgives)).mp haccepted⟩

private theorem const_of_accepts {codecs : List Codec} {item : Document}
    (h : (fromConst location schema).Gives allowed codecs)
    (haccepts : ∀ codec ∈ codecs, codec.Accepts surroundings value)
    (hitem : schema.get? "const" = some item) : item.Same value := by
  rcases gives_fromConst.mp h with ⟨hnone, -⟩ | ⟨found, literal, hfound, hliteral, rfl⟩
  · rw [hitem] at hnone
    cases hnone
  · cases hitem.symm.trans hfound
    rw [List.forall_mem_singleton, Codec.accepts_literal, accepts_of_literal? hliteral]
      at haccepts
    exact haccepts

private theorem required_of_accepts {codecs : List Codec} {list : Document} {key : String}
    (h : (fromRequired location schema).Gives allowed codecs)
    (haccepts : ∀ codec ∈ codecs, codec.Accepts surroundings value)
    (hlist : schema.get? "required" = some list) (hkey : .string key ∈ list.items) :
    value.has key := by
  rcases gives_fromRequired.mp h with ⟨hnone, -⟩ | ⟨keys, hkeys, -, rfl⟩
  · rw [hlist] at hnone
    cases hnone
  · cases hlist.symm.trans hkeys
    rw [List.forall_mem_singleton, Codec.accepts_interface] at haccepts
    obtain ⟨found, hfound, heq⟩ := List.mem_map.mp hkey
    cases heq
    obtain ⟨part, hpart, -⟩ := haccepts.2 (definedProperty key) (List.mem_map_of_mem hfound)
    exact Document.has_eq_true_iff.mpr ⟨part, hpart⟩

/-! Whole schemas -/

private theorem contributions_reflect (hexact : schema.ExactHere)
    (hreflects : Reflects allowed convert surroundings rules schema)
    (parts : Contributions allowed scope convert location schema)
    (haccepts : ∀ codec ∈ parts.all, codec.Accepts surroundings value) :
    schema.Follows rules .standard value := by
  simp only [Contributions.all, List.forall_mem_append] at haccepts
  obtain ⟨⟨⟨⟨⟨⟨⟨htypes, hobject⟩, harray⟩, henum⟩, hconst⟩, hall⟩, hany⟩, -⟩ := haccepts
  have hitems := (gives_fromArray.mp parts.gives_array).1
  have hshapes : Shapes schema value :=
    ⟨object_of_accepts hexact parts.gives_object hobject, array_of_accepts hitems harray⟩
  obtain ⟨properties, names, patterns, others, required, hproperties, -, -, hothers, hrequired,
    hcodecs⟩ := gives_fromObject.mp parts.gives_object
  rw [hcodecs, List.forall_mem_append, forall_mem_intersect_accepts] at hobject
  simp only [List.forall_mem_append] at hobject
  obtain ⟨⟨⟨⟨hpartial, -⟩, -⟩, hrecords⟩, hinterface⟩ := hobject
  rw [forall_mem_intersect_accepts] at hall
  have hlimits : ∀ keyword ∈ Document.limitKeywords, keyword ∉ Document.exactKeywords := by decide
  have hconditions : ∀ keyword ∈ ["oneOf", "not", "contains", "if"],
      keyword ∉ Document.exactKeywords := by decide
  apply Document.follows_of_unconditional
  · intro keyword hkeyword
    exact hexact.absent (hconditions keyword hkeyword)
  · apply Document.asserts_of_unlimited
    · intro keyword hkeyword
      exact hexact.absent (hlimits keyword hkeyword)
    · intro type htype
      exact type_of_accepts hexact parts.gives_types hshapes htype htypes
    · intro list hlist
      exact enum_of_accepts hexact parts.gives_enum henum hlist
    · intro item hitem
      exact const_of_accepts parts.gives_const hconst hitem
    · intro list hlist members hmembers key hkey
      exact required_of_accepts hrequired hinterface hlist hkey
  · intro part piece happlies
    cases happlies with
    | property hmap hpart hpiece =>
        exact validates_property hexact hreflects hproperties hpartial hmap hpart hpiece
    | additionalProperty hpart hkey hpiece =>
        exact validates_additionalProperty hexact hreflects hothers hrecords hpart hpiece
    | item hpart hschema hvalue hpiece =>
        subst value
        exact validates_item hexact hreflects hitems harray hpart hpiece
    | allOf hlist hpart =>
        exact validates_allOf hexact hreflects parts.gives_allOf hall hlist hpart
    -- The other keywords that apply a schema are not there.
    | itemAt hschemas => exact absurd rfl (hexact.items _ hschemas).2
    | patternProperty hmap =>
        rw [hexact.absent (by decide)] at hmap
        cases hmap
    | propertyName hpart =>
        rw [hexact.absent (by decide)] at hpart
        cases hpart
    | dependency hmap =>
        rw [hexact.absent (by decide)] at hmap
        cases hmap
    | additionalItem _ hpart =>
        rw [hexact.absent (by decide)] at hpart
        cases hpart
  · intro list hlist
    exact validates_anyOf hexact hreflects parts.gives_anyOf hany hlist

private theorem validates_of_accepts {isTop : Bool} {codec : Codec} (hexact : schema.Exact)
    (h : (compile scope isTop location schema).Gives allowed codec)
    (haccepts : codec.Accepts surroundings value) : schema.Validates rules .standard value := by
  induction schema using Document.subschemas_induction
    generalizing value isTop location codec with
  | step schema ih =>
      rcases isSchema_of_gives_compile h with ⟨accepts, rfl⟩ | ⟨members, rfl⟩
      · rw [(gives_compile_bool.mp h).2] at haccepts
        cases accepts with
        | true => exact Document.validates_bool.mpr rfl
        | false => exact absurd haccepts Codec.not_accepts_never
      · have hhere : (Document.object members).ExactHere := hexact.here
        have hnone : (Document.object members).get? "$ref" = none := hhere.absent (by decide)
        obtain ⟨-, -, parts, hcompose⟩ := (gives_compile_object hnone).mp h
        have hreflects : Reflects allowed (compile scope false) surroundings rules
            (.object members) := by
          intro part hpart place codec hgives piece hpiece
          exact ih part hpart (hexact.below hpart) hgives hpiece
        rw [accepts_of_gives_compose hcompose] at haccepts
        rw [Document.validates_object_iff hnone]
        exact contributions_reflect hhere hreflects parts haccepts

private theorem unmixed_of_exactHere (h : schema.ExactHere) : Unmixed schema where
  additional := by
    intro hproperties part hpart
    have habsent := Document.has_eq_false_iff.mp (h.apart hproperties)
    rw [habsent] at hpart
    cases hpart
  required := h.shape "required" (by decide)
  items := by
    intro list hlist
    have hkind := (h.items list hlist).2
    cases list with
    | array schemas => exact absurd rfl hkind
    | _ => rfl

theorem accepts_iff_validates {isTop : Bool} {codec : Codec} (hexact : schema.Exact)
    (h : (compile scope isTop location schema).Gives calm codec) :
    codec.Accepts surroundings value ↔ schema.Validates rules .standard value := by
  have href : schema.Everywhere fun position => position.get? "$ref" = none := by
    intro position hposition
    exact (hexact position hposition).absent (by decide)
  have hmixed : schema.Everywhere Unmixed := by
    intro position hposition
    exact unmixed_of_exactHere (hexact position hposition)
  constructor
  · exact validates_of_accepts hexact h
  · exact accepts_of_validates not_calm_warning href (fun _ => hmixed) h

/-- The codec of a schema of the exact fragment accepts just what the schema validates. -/
theorem compile_exact (scope : Scope) (isTop : Bool) (location : Location) {schema : Document}
    (h : schema.Exact) :
    ∃ codec, (compile scope isTop location schema).Gives calm codec ∧
      ∀ rules surroundings value,
        codec.Accepts surroundings value ↔ schema.Validates rules .standard value := by
  obtain ⟨codec, hcodec⟩ := exists_compile scope isTop location h
  exact ⟨codec, hcodec, fun _ _ _ => accepts_iff_validates h hcodec⟩

/-- An order has an id, which may be null, and tags of a few kinds. -/
def orderSchema : Document :=
  .object [("title", .string "order"), ("type", .string "object"),
    ("properties", .object [
      ("id", .object [("type", .array [.string "string", .string "null"])]),
      ("tags", .object [("type", .string "array"),
        ("items", .object [("anyOf", .array [
          .object [("const", .number "1")],
          .object [("enum", .array [.null, .string "new"])]])])])]),
    ("required", .array [.string "id"]),
    ("allOf", .array [.bool true,
      .object [("type", .string "object"), ("additionalProperties", .bool true)]])]

def bareScope : Scope :=
  ⟨false, ⟨"", "", [], 0, ""⟩⟩

theorem compile_exact_orderSchema :
    orderSchema.Exact ∧
      ∃ codec, (compile bareScope true .root orderSchema).Gives calm codec ∧
        ∀ rules surroundings value,
          codec.Accepts surroundings value ↔ orderSchema.Validates rules .standard value :=
  ⟨by decide, compile_exact bareScope true .root (by decide)⟩

end SchemaCodec.Conversion
