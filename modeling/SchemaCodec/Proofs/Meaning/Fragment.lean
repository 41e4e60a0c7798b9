import Mathlib.Tactic.MkIffOfInductiveProp
import SchemaCodec.Proofs.Conversion.Unfolding

namespace SchemaCodec

namespace Document

/-! The exact fragment: schemas whose conversion succeeds and keeps their meaning. -/

def restrictingKeywords : List String :=
  ["type", "properties", "required", "additionalProperties", "items", "enum", "const", "allOf",
    "anyOf"]

def exactKeywords : List String :=
  restrictingKeywords ++ ["title", "description", "$comment"]

def exactTypes : List String :=
  ["string", "number", "boolean", "null", "array", "object"]

/-- A schema keeps to the exact fragment, whatever the schemas below it do. -/
@[mk_iff]
structure ExactHere (schema : Document) : Prop where
  form : schema.kind = .boolean ∨ schema.kind = .object
  keywords : ∀ key ∈ schema.keys, key ∈ exactKeywords
  type : ∀ type ∈ schema.get? "type",
    type.oneOrMany ≠ [] ∧ ∀ name ∈ type.oneOrMany, name.string? ∈ exactTypes.map some
  shape : ∀ keyword ∈ ["properties", "required", "additionalProperties"],
    schema.has keyword = true → schema.stringAt? "type" = some "object"
  apart : schema.has "properties" = true → schema.has "additionalProperties" = false
  properties : ∀ map ∈ schema.get? "properties", map.kind = .object
  required : ∀ list ∈ schema.get? "required",
    list.kind = .array ∧ ∀ key ∈ list.items, key.kind = .string
  additional : ∀ part ∈ schema.get? "additionalProperties", part.isFalse = false
  items : ∀ part ∈ schema.get? "items",
    schema.stringAt? "type" = some "array" ∧ part.kind ≠ .array
  enum : ∀ list ∈ schema.get? "enum",
    list.items ≠ [] ∧ ∀ item ∈ list.items, item.kind ∈ [.null, .boolean, .number, .string]
  const : ∀ item ∈ schema.get? "const", item.kind ∈ [.boolean, .number, .string]
  choices : ∀ keyword ∈ ["allOf", "anyOf"], ∀ list ∈ schema.get? keyword, list.items ≠ []

/-- A schema keeps to the exact fragment at every place. -/
def Exact : Document → Prop :=
  Everywhere ExactHere

instance (schema : Document) : Decidable schema.ExactHere :=
  decidable_of_iff' _ (exactHere_iff schema)

instance (schema : Document) : Decidable schema.Exact :=
  inferInstanceAs (Decidable (schema.Everywhere ExactHere))

private theorem exists_strings {items : List Document} (h : ∀ item ∈ items, item.kind = .string) :
    ∃ texts : List String, items = texts.map .string := by
  induction items with
  | nil => exact ⟨[], rfl⟩
  | cons first rest ih =>
      obtain ⟨hfirst, hrest⟩ := List.forall_mem_cons.mp h
      obtain ⟨texts, rfl⟩ := ih hrest
      cases first with
      | string text => exact ⟨text :: texts, rfl⟩
      | _ => cases hfirst

namespace ExactHere

variable {schema : Document}

theorem absent (h : schema.ExactHere) {keyword : String} (hkeyword : keyword ∉ exactKeywords) :
    schema.get? keyword = none :=
  get?_eq_none_of_not_mem fun hkey => hkeyword (h.keywords keyword hkey)

private theorem type_object (h : schema.ExactHere) {keyword : String} {found : Document}
    (hkeyword : keyword ∈ ["properties", "required", "additionalProperties"])
    (hfound : schema.get? keyword = some found) :
    schema.get? "type" = some (.string "object") := by
  apply stringAt?_eq_some_iff.mp
  exact h.shape keyword hkeyword (has_eq_true_iff.mpr ⟨found, hfound⟩)

private theorem type_array (h : schema.ExactHere) {part : Document}
    (hpart : schema.get? "items" = some part) :
    schema.get? "type" = some (.string "array") :=
  stringAt?_eq_some_iff.mp (h.items part hpart).1

theorem known_type (h : schema.ExactHere) {type name : Document}
    (htype : schema.get? "type" = some type) (hname : name ∈ type.oneOrMany) :
    ∃ text ∈ exactTypes, name = .string text := by
  obtain ⟨text, htext, hsome⟩ := List.mem_map.mp ((h.type type htype).2 name hname)
  refine ⟨text, htext, ?_⟩
  cases name with
  | string found => exact congrArg Document.string (Option.some.inj hsome).symm
  | _ => cases hsome

private theorem properties_object (h : schema.ExactHere) {map : Document}
    (hmap : schema.get? "properties" = some map) : ∃ members, map = .object members := by
  have hkind := h.properties map hmap
  cases map with
  | object members => exact ⟨members, rfl⟩
  | _ => cases hkind

private theorem required_strings (h : schema.ExactHere) {list : Document}
    (hlist : schema.get? "required" = some list) :
    ∃ keys : List String, list = .array (keys.map .string) := by
  obtain ⟨hkind, hkeys⟩ := h.required list hlist
  cases list with
  | array items =>
      obtain ⟨keys, rfl⟩ := exists_strings hkeys
      exact ⟨keys, rfl⟩
  | _ => cases hkind

private theorem enum_values (h : schema.ExactHere) {list : Document}
    (hlist : schema.get? "enum" = some list) :
    ∃ values, list = .array values ∧ values ≠ [] ∧
      ∀ value ∈ values, value.kind ∈ [.null, .boolean, .number, .string] := by
  obtain ⟨hsome, hkinds⟩ := h.enum list hlist
  cases list with
  | array values => exact ⟨values, rfl, hsome, hkinds⟩
  | _ => exact absurd rfl hsome

private theorem choice_schemas (h : schema.ExactHere) {keyword : String} {list : Document}
    (hkeyword : keyword ∈ ["allOf", "anyOf"]) (hlist : schema.get? keyword = some list) :
    ∃ schemas, list = .array schemas ∧ schemas ≠ [] := by
  have hsome := h.choices keyword hkeyword list hlist
  cases list with
  | array schemas => exact ⟨schemas, rfl, hsome⟩
  | _ => exact absurd rfl hsome

end ExactHere

end Document

namespace Conversion

variable {scope : Scope} {convert : Converter} {schema : Document}

def Converts (convert : Converter) (schema : Document) : Prop :=
  ∀ part ∈ schema.subschemas, ∀ place, ∃ codec, (convert place part).Gives calm codec

private theorem exists_fromType (h : schema.ExactHere) :
    ∃ codecs, (fromType scope schema).Gives calm codecs := by
  cases htype : schema.get? "type" with
  | none => exact ⟨[], gives_fromType.mpr (.inl ⟨htype, rfl⟩)⟩
  | some type =>
      have hnames : ∀ name ∈ type.oneOrMany, ∃ part,
          (fromTypeName scope schema type (name.string?.getD "")).Gives calm part := by
        intro name hname
        obtain ⟨text, htext, rfl⟩ := h.known_type htype hname
        have hknown : ∀ text ∈ Document.exactTypes, text ∈ knownTypes := by decide
        exact ⟨_, gives_fromTypeName_of_known (fun _ => calm_required) (hknown text htext)⟩
      obtain ⟨parts, hparts⟩ := exists_forall₂ hnames
      exact ⟨_, gives_fromType.mpr (.inr ⟨type, parts, htype, hparts, rfl⟩)⟩

private theorem exists_convertMap {keyword : String} {location : Location}
    {members : List (String × Document)}
    (h : ∀ member ∈ members, ∀ place, ∃ codec, (convert place member.2).Gives calm codec) :
    ∃ codecs, (convertMap convert keyword location members).Gives calm codecs := by
  have hall : ∀ member ∈ members, ∃ codec : String × Codec, codec.1 = member.1 ∧
      (convert (location.down [keyword, member.1]) member.2).Gives calm codec.2 := by
    intro member hmember
    obtain ⟨codec, hcodec⟩ := h member hmember (location.down [keyword, member.1])
    exact ⟨(member.1, codec), rfl, hcodec⟩
  obtain ⟨codecs, hcodecs⟩ := exists_forall₂ hall
  exact ⟨codecs, gives_convertMap.mpr hcodecs⟩

private theorem exists_convertList {keyword : String} {location : Location}
    {schemas : List Document}
    (h : ∀ part ∈ schemas, ∀ place, ∃ codec, (convert place part).Gives calm codec) :
    ∃ codecs, (convertList convert keyword location schemas).Gives calm codecs := by
  simp only [convertList, gives_each]
  apply exists_forall₂_zipIdx
  intro part hpart index
  exact h part hpart _

private theorem exists_fromProperties (location : Location) (h : schema.ExactHere)
    (hconverts : Converts convert schema) :
    ∃ codecs, (fromProperties convert location schema).Gives calm codecs := by
  cases hmap : schema.get? "properties" with
  | none => exact ⟨[], gives_fromProperties.mpr (.inl ⟨hmap, rfl⟩)⟩
  | some map =>
      obtain ⟨members, rfl⟩ := h.properties_object hmap
      have hparts : ∃ parts,
          (convertMap convert "properties" location members).Gives calm parts := by
        apply exists_convertMap
        intro member hmember
        exact hconverts _
          (Document.mem_subschemas_of_map (h.absent (by decide)) (.inl rfl) hmap hmember)
      obtain ⟨parts, hparts⟩ := hparts
      exact ⟨_, gives_fromProperties.mpr
        (.inr ⟨members, parts, h.type_object (by decide) hmap, hmap, hparts, rfl⟩)⟩

private theorem exists_fromAdditionalProperties (location : Location) (h : schema.ExactHere)
    (hconverts : Converts convert schema) :
    ∃ codecs, (fromAdditionalProperties convert location schema).Gives calm codecs := by
  cases hpart : schema.get? "additionalProperties" with
  | none => exact ⟨[], gives_fromAdditionalProperties.mpr (.inl ⟨hpart, rfl⟩)⟩
  | some part =>
      have hopen : part ≠ .bool false := by
        intro hfalse
        subst part
        cases h.additional _ hpart
      obtain ⟨codec, hcodec⟩ := hconverts part
        (Document.mem_subschemas_of_value (h.absent (by decide)) (.inr rfl) hpart)
        (location.down ["additionalProperties"])
      exact ⟨_, gives_fromAdditionalProperties.mpr
        (.inr (.inr ⟨part, codec, h.type_object (by decide) hpart, hpart, hopen, hcodec, rfl⟩))⟩

private theorem exists_fromObject (location : Location) (h : schema.ExactHere)
    (hconverts : Converts convert schema) :
    ∃ codecs, (fromObject convert location schema).Gives calm codecs := by
  obtain ⟨properties, hproperties⟩ := exists_fromProperties location h hconverts
  obtain ⟨others, hothers⟩ := exists_fromAdditionalProperties location h hconverts
  have hnames : (fromPropertyNames convert location schema).Gives calm [] :=
    gives_fromPropertyNames.mpr (.inl ⟨h.absent (by decide), rfl⟩)
  have hpatterns : (fromPatternProperties convert location schema).Gives calm [] :=
    gives_fromPatternProperties.mpr (.inl ⟨h.absent (by decide), rfl⟩)
  have hrequired : ∃ required, (fromRequired location schema).Gives calm required := by
    cases hlist : schema.get? "required" with
    | none => exact ⟨[], gives_fromRequired.mpr (.inl ⟨hlist, rfl⟩)⟩
    | some list =>
        obtain ⟨keys, rfl⟩ := h.required_strings hlist
        exact ⟨_, gives_fromRequired.mpr (.inr ⟨keys, hlist, fun _ => calm_required, rfl⟩)⟩
  obtain ⟨required, hrequired⟩ := hrequired
  exact ⟨_, gives_fromObject.mpr ⟨properties, [], [], others, required, hproperties, hnames,
    hpatterns, hothers, hrequired, rfl⟩⟩

private theorem exists_fromArray (location : Location) (h : schema.ExactHere)
    (hconverts : Converts convert schema) :
    ∃ codecs, (fromArray convert location schema).Gives calm codecs := by
  have hcontains : schema.has "contains" = true →
      calm (.reported (.warning "contains field not supported")) := by
    intro hhas
    obtain ⟨part, hpart⟩ := Document.has_eq_true_iff.mp hhas
    have habsent : schema.get? "contains" = none := h.absent (by decide)
    rw [habsent] at hpart
    cases hpart
  suffices hitems : ∃ codecs, (fromItems convert location schema).Gives calm codecs by
    obtain ⟨codecs, hcodecs⟩ := hitems
    exact ⟨codecs, gives_fromArray.mpr ⟨hcodecs, hcontains⟩⟩
  cases hpart : schema.get? "items" with
  | none => exact ⟨[], gives_fromItems.mpr (.inl ⟨hpart, rfl⟩)⟩
  | some part =>
      have htype := h.type_array hpart
      have hkind := (h.items part hpart).2
      by_cases hbool : ∃ accepts, part = .bool accepts
      · obtain ⟨accepts, rfl⟩ := hbool
        cases accepts with
        | true => exact ⟨[], gives_fromItems.mpr (.inr ⟨htype, .inl ⟨hpart, rfl⟩⟩)⟩
        | false =>
            exact ⟨_, gives_fromItems.mpr (.inr ⟨htype, .inr (.inl ⟨hpart, rfl⟩)⟩)⟩
      · have hlist : ∀ schemas, part ≠ .array schemas := by
          intro schemas harray
          subst part
          exact hkind rfl
        obtain ⟨codec, hcodec⟩ := hconverts part
          (Document.mem_subschemas_of_item (h.absent (by decide)) hpart hlist)
          (location.down ["items"])
        exact ⟨_, gives_fromItems.mpr (.inr ⟨htype, .inr (.inr (.inr
          ⟨part, codec, hpart, fun accepts haccepts => hbool ⟨accepts, haccepts⟩, hlist, hcodec,
            rfl⟩))⟩)⟩

private theorem exists_fromEnum (location : Location) (h : schema.ExactHere) :
    ∃ codecs, (fromEnum scope location schema).Gives calm codecs := by
  cases hlist : schema.get? "enum" with
  | none => exact ⟨[], gives_fromEnum.mpr (.inl ⟨hlist, rfl⟩)⟩
  | some list =>
      obtain ⟨values, rfl, -, hkinds⟩ := h.enum_values hlist
      have hcodecs : ∀ value ∈ values, ∃ codec, valueCodec? scope value = some codec := by
        intro value hvalue
        have hkind := hkinds value hvalue
        cases value with
        | array items => simp [Document.kind] at hkind
        | object members => simp [Document.kind] at hkind
        | _ => exact ⟨_, rfl⟩
      have hparts : ∃ parts, (each (enumMember scope location) values.zipIdx).Gives calm parts := by
        simp only [gives_each]
        apply exists_forall₂_zipIdx
        intro value hvalue index
        obtain ⟨codec, hcodec⟩ := hcodecs value hvalue
        exact ⟨codec, gives_enumMember_of_valueCodec? (fun _ => calm_required) hcodec⟩
      obtain ⟨parts, hparts⟩ := hparts
      exact ⟨_, gives_fromEnum.mpr (.inr ⟨values, parts, hlist, hparts, rfl⟩)⟩

private theorem exists_fromConst (location : Location) (h : schema.ExactHere) :
    ∃ codecs, (fromConst location schema).Gives calm codecs := by
  cases hitem : schema.get? "const" with
  | none => exact ⟨[], gives_fromConst.mpr (.inl ⟨hitem, rfl⟩)⟩
  | some item =>
      have hkind := h.const item hitem
      have hliteral : ∃ literal, literal? item = some literal := by
        cases item with
        | null => simp [Document.kind] at hkind
        | array items => simp [Document.kind] at hkind
        | object members => simp [Document.kind] at hkind
        | _ => exact ⟨_, rfl⟩
      obtain ⟨literal, hliteral⟩ := hliteral
      exact ⟨_, gives_fromConst.mpr (.inr ⟨item, literal, hitem, hliteral, rfl⟩)⟩

private theorem exists_fromAll (keyword : String) (location : Location) (h : schema.ExactHere)
    (hkeyword : keyword ∈ ["allOf", "anyOf"]) (hconverts : Converts convert schema) :
    ∃ codecs, (fromAll convert keyword location schema).Gives calm codecs := by
  cases hlist : schema.get? keyword with
  | none => exact ⟨[], gives_fromAll.mpr (.inl ⟨hlist, rfl⟩)⟩
  | some list =>
      obtain ⟨schemas, rfl, -⟩ := h.choice_schemas hkeyword hlist
      have hcodecs : ∃ codecs,
          (convertList convert keyword location schemas).Gives calm codecs := by
        apply exists_convertList
        intro part hpart
        have hchoice : keyword = "allOf" ∨ keyword = "anyOf" ∨ keyword = "oneOf" := by
          simp only [List.mem_cons, List.not_mem_nil, or_false] at hkeyword
          exact hkeyword.imp_right .inl
        exact hconverts part
          (Document.mem_subschemas_of_list (h.absent (by decide)) hchoice hlist hpart)
      obtain ⟨codecs, hcodecs⟩ := hcodecs
      exact ⟨codecs, gives_fromAll.mpr (.inr ⟨schemas, hlist, hcodecs⟩)⟩

private theorem exists_contributions (location : Location) (h : schema.ExactHere)
    (hconverts : Converts convert schema) :
    Nonempty (Contributions calm scope convert location schema) := by
  obtain ⟨types, htypes⟩ := exists_fromType h
  obtain ⟨object, hobject⟩ := exists_fromObject location h hconverts
  obtain ⟨array, harray⟩ := exists_fromArray location h hconverts
  obtain ⟨enum, henum⟩ := exists_fromEnum location h
  obtain ⟨const, hconst⟩ := exists_fromConst location h
  obtain ⟨allOf, hallOf⟩ := exists_fromAll "allOf" location h (by decide) hconverts
  obtain ⟨anyOf, hanyOf⟩ := exists_fromAll "anyOf" location h (by decide) hconverts
  have honeOf : (fromAll convert "oneOf" location schema).Gives calm [] :=
    gives_fromAll.mpr (.inl ⟨h.absent (by decide), rfl⟩)
  exact ⟨⟨types, object, array, enum, const, allOf, anyOf, [], htypes, hobject, harray, henum,
    hconst, hallOf, hanyOf, honeOf⟩⟩

/-! Only a schema of annotations contributes nothing. -/

variable {allowed : Event → Prop} {location : Location}

private theorem absent_of_fromObject_nil (hexact : schema.ExactHere)
    (h : (fromObject convert location schema).Gives allowed []) :
    ∀ keyword ∈ ["properties", "required", "additionalProperties"],
      schema.get? keyword = none := by
  obtain ⟨properties, names, patterns, others, required, hproperties, -, -, hothers, hrequired,
    hnil⟩ := gives_fromObject.mp h
  obtain ⟨hshape, rfl⟩ := List.append_eq_nil_iff.mp hnil.symm
  obtain ⟨hbefore, rfl⟩ := List.append_eq_nil_iff.mp (intersect_eq_nil hshape)
  obtain ⟨hbefore, -⟩ := List.append_eq_nil_iff.mp hbefore
  obtain ⟨rfl, -⟩ := List.append_eq_nil_iff.mp hbefore
  intro keyword hkeyword
  simp only [List.mem_cons, List.not_mem_nil, or_false] at hkeyword
  rcases hkeyword with rfl | rfl | rfl
  · rcases gives_fromProperties.mp hproperties with ⟨hnone, -⟩ | ⟨_, _, -, -, -, hcodecs⟩
    · exact hnone
    · cases hcodecs
  · rcases gives_fromRequired.mp hrequired with ⟨hnone, -⟩ | ⟨_, -, -, hcodecs⟩
    · exact hnone
    · cases hcodecs
  · rcases gives_fromAdditionalProperties.mp hothers with
      ⟨hnone, -⟩ | ⟨-, hfalse, -⟩ | ⟨_, _, -, -, -, -, hcodecs⟩
    · exact hnone
    · cases hexact.additional _ hfalse
    · cases hcodecs

private theorem type_of_fromType_nil (hexact : schema.ExactHere)
    (h : (fromType scope schema).Gives allowed []) (hobject : hasObjectShape schema = false)
    (harray : hasArrayShape schema = false) : schema.get? "type" = none := by
  rcases gives_fromType.mp h with ⟨hnone, -⟩ | ⟨type, parts, htype, hparts, hnil⟩
  · exact hnone
  · obtain ⟨name, hname⟩ := List.exists_mem_of_ne_nil _ (hexact.type type htype).1
    obtain ⟨part, hpart, hgives⟩ := exists_right_of_forall₂ hparts hname
    have hempty : part = [] := List.flatten_eq_nil_iff.mp (unite_eq_nil hnil.symm) part hpart
    have hcodecs := typeCodecs_of_gives hgives
    rw [hempty] at hcodecs
    rcases typeCodecs_eq_nil hcodecs.symm with ⟨-, hshape⟩ | ⟨-, hshape⟩
    · rw [harray] at hshape
      cases hshape
    · rw [hobject] at hshape
      cases hshape

theorem absent_of_fromAll_nil {keyword : String} (hexact : schema.ExactHere)
    (hkeyword : keyword ∈ ["allOf", "anyOf"])
    (h : (fromAll convert keyword location schema).Gives allowed []) :
    schema.get? keyword = none := by
  rcases gives_fromAll.mp h with ⟨hnone, -⟩ | ⟨schemas, hschemas, hgives⟩
  · exact hnone
  · have hnil := (gives_of_convertList hgives).length_eq
    exact absurd (List.length_eq_zero_iff.mp hnil) (hexact.choices keyword hkeyword _ hschemas)

private theorem isAnnotation_of_all_eq_nil (hexact : schema.ExactHere)
    (parts : Contributions allowed scope convert location schema) (h : parts.all = []) :
    isAnnotation schema = true := by
  obtain ⟨types, object, array, enum, const, allOf, anyOf, oneOf, htypes, hobject, harray, henum,
    hconst, hallOf, hanyOf, honeOf⟩ := parts
  simp only [Contributions.all, List.append_eq_nil_iff] at h
  obtain ⟨⟨⟨⟨⟨⟨⟨rfl, rfl⟩, rfl⟩, rfl⟩, rfl⟩, hall⟩, hany⟩, -⟩ := h
  cases intersect_eq_nil hall
  cases unite_eq_nil hany
  have hshape := absent_of_fromObject_nil hexact hobject
  have hitems := items_of_fromArray_nil harray
  have htype : schema.get? "type" = none := by
    apply type_of_fromType_nil hexact htypes
    · have hpatterns : schema.get? "patternProperties" = none := hexact.absent (by decide)
      have hnames : schema.get? "propertyNames" = none := hexact.absent (by decide)
      simp [hasObjectShape, Document.has, hpatterns, hnames, hshape "properties" (by decide),
        hshape "additionalProperties" (by decide)]
    · rcases hitems with hnone | htrue
      · simp [hasArrayShape, hnone]
      · simp [hasArrayShape, htrue, Document.isTrue]
  have habsent : ∀ keyword ∈ Document.restrictingKeywords, schema.get? keyword = none := by
    simp only [Document.restrictingKeywords, List.forall_mem_cons]
    refine ⟨htype, hshape _ (by decide), hshape _ (by decide), hshape _ (by decide), ?_, ?_, ?_,
      absent_of_fromAll_nil hexact (by decide) hallOf,
      absent_of_fromAll_nil hexact (by decide) hanyOf, List.forall_mem_nil _⟩
    · rcases hitems with hnone | htrue
      · exact hnone
      · rw [hexact.type_array htrue] at htype
        cases htype
    · rcases gives_fromEnum.mp henum with ⟨hnone, -⟩ | ⟨values, parts, hvalues, hparts, hnil⟩
      · exact hnone
      · rw [unite_eq_nil hnil.symm, gives_each] at hparts
        have hempty := hparts.length_eq
        rw [List.length_zipIdx] at hempty
        exact absurd (List.length_eq_zero_iff.mp hempty) (hexact.enum _ hvalues).1
    · rcases gives_fromConst.mp hconst with ⟨hnone, -⟩ | ⟨_, _, -, -, hcodecs⟩
      · exact hnone
      · cases hcodecs
  apply List.all_eq_true.mpr
  intro key hkey
  obtain ⟨found, hfound⟩ := Document.exists_get?_of_mem_keys hkey
  have hother : key ∉ Document.restrictingKeywords := by
    intro hmem
    rw [habsent key hmem] at hfound
    cases hfound
  have hsplit : ∀ key ∈ Document.exactKeywords, key ∉ Document.restrictingKeywords →
      annotations.contains key = true := by decide
  exact hsplit key (hexact.keywords key hkey) hother

/-- Every schema of the exact fragment is converted, without a warning. -/
theorem exists_compile (scope : Scope) (isTop : Bool) (location : Location)
    (h : schema.Exact) : ∃ codec, (compile scope isTop location schema).Gives calm codec := by
  induction schema using Document.subschemas_induction generalizing isTop location with
  | step schema ih =>
      cases schema with
      | bool accepts => exact ⟨_, gives_compile_bool.mpr ⟨calm_required, rfl⟩⟩
      | object members =>
          have hexact : (Document.object members).ExactHere := h.here
          have hconverts : Converts (compile scope false) (.object members) := by
            intro part hpart place
            exact ih part hpart false place (h.below hpart)
          obtain ⟨parts⟩ : Nonempty (Contributions calm scope _ location _) :=
            exists_contributions location hexact hconverts
          have hcompose : ∃ codec,
              (compose location (.object members) parts.all).Gives calm codec := by
            simp only [gives_compose]
            match hall : parts.all with
            | [] =>
                -- Nothing contributes only where nothing but annotations is there.
                have hplain := isAnnotation_of_all_eq_nil hexact parts hall
                exact ⟨_, .inl ⟨rfl, by rw [hplain, Bool.or_true], rfl⟩⟩
            | [single] => exact ⟨single, .inr (.inl rfl)⟩
            | first :: second :: rest => exact ⟨_, .inr (.inr ⟨by simp, rfl⟩)⟩
          obtain ⟨codec, hcodec⟩ := hcompose
          refine ⟨codec, (gives_compile_object (hexact.absent (by decide))).mpr
            ⟨gives_reportKeywords.mpr ⟨fun _ _ _ => calm_info, ?_⟩, calm_required, parts, hcodec⟩⟩
          intro message hmessage
          simp only [unsupportedKeywords, List.mem_map, List.mem_filter] at hmessage
          obtain ⟨key, ⟨hkey, hunknown⟩, -⟩ := hmessage
          have hadmissible : ∀ key ∈ Document.exactKeywords, isAdmissible isTop key = true := by
            cases isTop <;> decide
          rw [hadmissible key (hexact.keywords key hkey)] at hunknown
          cases hunknown
      | _ =>
          have hform := h.here.form
          simp [Document.kind] at hform

end Conversion

end SchemaCodec
