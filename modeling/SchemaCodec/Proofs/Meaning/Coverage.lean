import Mathlib.Tactic.MkIffOfInductiveProp
import SchemaCodec.Proofs.Conversion.Unfolding
import SchemaCodec.Proofs.Meaning.Acceptance
import SchemaCodec.Proofs.Meaning.Validity

namespace SchemaCodec.Conversion

open Codec (Surroundings)
open Document (Rules Reading)

/-! What a schema validates is accepted by its codec: keyword by keyword, then for whole schemas. -/

section

variable {surroundings : Surroundings} {value : Document}

theorem forall_mem_unite_accepts {codecs : List Codec} :
    (∀ codec ∈ unite codecs, codec.Accepts surroundings value) ↔
      codecs = [] ∨ ∃ codec ∈ codecs, codec.Accepts surroundings value := by
  match codecs with
  | [] => simp [unite]
  | [single] => simp [unite]
  | first :: second :: rest => simp [unite]

theorem forall_mem_intersect_accepts {codecs : List Codec} :
    (∀ codec ∈ intersect codecs, codec.Accepts surroundings value) ↔
      ∀ codec ∈ codecs, codec.Accepts surroundings value := by
  match codecs with
  | [] => simp [intersect]
  | [single] => simp [intersect]
  | first :: second :: rest => simp [intersect]

theorem accepts_of_gives_compose {allowed : Event → Prop} {location : Location}
    {schema : Document} {codecs : List Codec} {codec : Codec}
    (h : (compose location schema codecs).Gives allowed codec) :
    codec.Accepts surroundings value ↔
      ∀ part ∈ codecs, part.Accepts surroundings value := by
  rcases gives_compose.mp h with ⟨rfl, -, rfl⟩ | rfl | ⟨-, rfl⟩
  · simp
  · simp
  · exact Codec.accepts_intersection

theorem accepts_nullOf {scope : Scope} :
    (nullOf scope).Accepts surroundings value ↔ value = .null := by
  unfold nullOf
  cases scope.maskNull with
  | true => exact Codec.accepts_helper
  | false => exact Codec.accepts_null

theorem accepts_of_literal? {item : Document} {literal : Codec.Literal}
    (h : literal? item = some literal) : literal.Accepts value ↔ item.Same value := by
  cases item with
  | bool flag =>
      cases h
      exact Document.same_bool.symm
  | number text =>
      cases h
      exact Document.same_number.symm
  | string text =>
      cases h
      exact Document.same_string.symm
  | null => cases h
  | array items => cases h
  | object members => cases h

theorem accepts_of_valueCodec? {scope : Scope} {item : Document} {codec : Codec}
    (h : valueCodec? scope item = some codec) :
    codec.Accepts surroundings value ↔ item.Same value := by
  cases item with
  | null =>
      cases h
      rw [accepts_nullOf, Document.same_null]
  | bool flag =>
      cases h
      exact Codec.accepts_literal.trans (accepts_of_literal? rfl)
  | number text =>
      cases h
      exact Codec.accepts_literal.trans (accepts_of_literal? rfl)
  | string text =>
      cases h
      exact Codec.accepts_literal.trans (accepts_of_literal? rfl)
  | array items => cases h
  | object members => cases h

end

/-! Types -/

section

variable {allowed : Event → Prop} {scope : Scope} {convert : Converter} {location : Location}
  {schema value : Document} {surroundings : Surroundings} {rules : Rules} {reading : Reading}

private theorem typeCodecs_accept {name : String} (htype : value.HasType name) {codec : Codec}
    (hcodec : codec ∈ typeCodecs scope schema name) : codec.Accepts surroundings value := by
  unfold Document.HasType at htype
  split at htype
  · rw [List.mem_singleton.mp hcodec]
    exact accepts_nullOf.mpr htype
  · rw [List.mem_singleton.mp hcodec]
    exact Codec.accepts_boolean.mpr htype
  · rw [List.mem_singleton.mp hcodec]
    exact Codec.accepts_number.mpr htype
  · rw [List.mem_singleton.mp hcodec]
    obtain ⟨text, n, hvalue, -⟩ := htype
    exact Codec.accepts_number.mpr ⟨text, hvalue⟩
  · rw [List.mem_singleton.mp hcodec]
    exact Codec.accepts_string.mpr htype
  · simp only [typeCodecs] at hcodec
    split at hcodec
    · cases hcodec
    · rw [List.mem_singleton.mp hcodec]
      exact Codec.accepts_unknownArray.mpr htype
  · simp only [typeCodecs] at hcodec
    split at hcodec
    · cases hcodec
    · rw [List.mem_singleton.mp hcodec]
      exact Codec.accepts_unknownRecord.mpr htype
  · exact htype.elim

theorem type_of_hasObjectShape {codecs : List Codec}
    (h : (fromObject convert location schema).Gives allowed codecs)
    (hshape : hasObjectShape schema = true) :
    schema.get? "type" = some (.string "object") := by
  obtain ⟨properties, names, patterns, others, required, hproperties, hnames, hpatterns, hothers,
    -, -⟩ := gives_fromObject.mp h
  simp only [hasObjectShape, Document.has, Bool.or_eq_true, Option.isSome_iff_ne_none] at hshape
  rcases hshape with ((hpresent | hpresent) | hpresent) | hpresent
  · rcases gives_fromProperties.mp hproperties with ⟨hnone, -⟩ | ⟨members, parts, htype, -⟩
    · exact absurd hnone hpresent
    · exact htype
  · rcases gives_fromPatternProperties.mp hpatterns with ⟨hnone, -⟩ | ⟨_, _, _, htype, -⟩
    · exact absurd hnone hpresent
    · exact htype
  · rcases gives_fromPropertyNames.mp hnames with ⟨hnone, -⟩ | ⟨_, _, htype, -⟩
    · exact absurd hnone hpresent
    · exact htype
  · rcases gives_fromAdditionalProperties.mp hothers with
      ⟨hnone, -⟩ | ⟨htype, -⟩ | ⟨_, _, htype, -⟩
    · simp [hnone] at hpresent
    · exact htype
    · exact htype

theorem type_of_hasArrayShape {codecs : List Codec}
    (h : (fromItems convert location schema).Gives allowed codecs)
    (hshape : hasArrayShape schema = true) :
    schema.get? "type" = some (.string "array") := by
  rcases gives_fromItems.mp h with ⟨hnone, -⟩ | ⟨htype, -⟩
  · simp [hasArrayShape, hnone] at hshape
  · exact htype

theorem fromType_accepts {codecs : List Codec}
    (h : (fromType scope schema).Gives allowed codecs)
    (hobject : hasObjectShape schema = true → schema.get? "type" = some (.string "object"))
    (harray : hasArrayShape schema = true → schema.get? "type" = some (.string "array"))
    (hvalid : ∀ type, schema.get? "type" = some type →
      ∃ name, .string name ∈ type.oneOrMany ∧ value.HasType name) :
    ∀ codec ∈ codecs, codec.Accepts surroundings value := by
  rcases gives_fromType.mp h with ⟨-, rfl⟩ | ⟨type, parts, htype, hparts, rfl⟩
  · intro codec hcodec
    cases hcodec
  · rw [forall_mem_unite_accepts]
    obtain ⟨name, hname, hhas⟩ := hvalid type htype
    obtain ⟨part, hpart, hgives⟩ := exists_right_of_forall₂ hparts hname
    have hcodecs : part = typeCodecs scope schema name := typeCodecs_of_gives hgives
    cases hnil : typeCodecs scope schema name with
    | nil =>
        -- The type leaves its codec to the other keywords, so it is the only type.
        have hsingle : type = .string name := by
          rcases typeCodecs_eq_nil hnil with ⟨rfl, hshape⟩ | ⟨rfl, hshape⟩
          · exact Option.some.inj (htype.symm.trans (harray hshape))
          · exact Option.some.inj (htype.symm.trans (hobject hshape))
        subst type
        cases hparts with
        | cons hfirst hothers =>
            cases hothers
            rw [List.mem_singleton.mp hpart] at hcodecs
            left
            rw [hcodecs, hnil]
            rfl
    | cons codec rest =>
        right
        have hcodec : codec ∈ typeCodecs scope schema name := by
          rw [hnil]
          exact List.mem_cons_self ..
        refine ⟨codec, List.mem_flatten.mpr ⟨part, hpart, ?_⟩, typeCodecs_accept hhas hcodec⟩
        rw [hcodecs]
        exact hcodec

/-! Objects -/

/-- The codecs of the schemas below a schema accept what those validate. -/
def Covers (allowed : Event → Prop) (convert : Converter) (surroundings : Surroundings)
    (rules : Rules) (reading : Reading) (schema : Document) : Prop :=
  ∀ part ∈ schema.subschemas, ∀ place codec, (convert place part).Gives allowed codec →
    ∀ piece, part.Validates rules reading piece → codec.Accepts surroundings piece

private theorem hasType_of_asserts {name : String}
    (htype : schema.get? "type" = some (.string name))
    (hvalid : schema.Asserts rules reading value) : value.HasType name := by
  obtain ⟨found, hfound, hhas⟩ := hvalid.type _ htype
  cases List.mem_singleton.mp hfound
  exact hhas

theorem accepts_propertiesCodec {parts : List (String × Codec)} :
    (propertiesCodec schema parts).Accepts surroundings value ↔
      (∃ members, value = .object members) ∧
        ∀ part ∈ parts, ∀ piece, value.get? part.1 = some piece →
          part.2.Accepts surroundings piece := by
  have hshape : (Codec.object .partialOf
      (parts.map fun part => .plain part.1 part.2)).Accepts surroundings value ↔
      (∃ members, value = .object members) ∧
        ∀ part ∈ parts, ∀ piece, value.get? part.1 = some piece →
          part.2.Accepts surroundings piece := by
    rw [Codec.accepts_partialOf, List.forall_mem_map]
    rfl
  unfold propertiesCodec
  cases schema.falseAt "additionalProperties" with
  | true => exact Codec.accepts_exact.trans hshape
  | false => exact hshape

private theorem fromProperties_accepts {codecs : List Codec} (href : schema.get? "$ref" = none)
    (hcovers : Covers allowed convert surroundings rules reading schema)
    (h : (fromProperties convert location schema).Gives allowed codecs)
    (hvalid : schema.Follows rules reading value) :
    ∀ codec ∈ codecs, codec.Accepts surroundings value := by
  rcases gives_fromProperties.mp h with ⟨-, rfl⟩ | ⟨members, parts, htype, hmembers, hparts, rfl⟩
  · exact List.forall_mem_nil _
  · rw [List.forall_mem_singleton, accepts_propertiesCodec]
    refine ⟨hasType_of_asserts htype hvalid.asserts, ?_⟩
    intro part hpart piece hpiece
    obtain ⟨⟨key, schema'⟩, hmember, hkey, hgives⟩ :=
      exists_left_of_forall₂ (gives_convertMap.mp hparts) hpart
    rw [hkey] at hpiece
    exact hcovers schema' (Document.mem_subschemas_of_map href (.inl rfl) hmembers hmember) _ _
      hgives piece (hvalid.applies _ _ (.property hmembers hmember hpiece))

private theorem fromPropertyNames_accepts {codecs : List Codec} (href : schema.get? "$ref" = none)
    (hcovers : Covers allowed convert surroundings rules reading schema)
    (h : (fromPropertyNames convert location schema).Gives allowed codecs)
    (hvalid : schema.Follows rules reading value) :
    ∀ codec ∈ codecs, codec.Accepts surroundings value := by
  rcases gives_fromPropertyNames.mp h with ⟨-, rfl⟩ | ⟨names, domain, htype, hnames, hdomain, rfl⟩
  · exact List.forall_mem_nil _
  · rw [List.forall_mem_singleton, Codec.accepts_record]
    obtain ⟨members, rfl⟩ := hasType_of_asserts htype hvalid.asserts
    refine ⟨members, rfl, ?_⟩
    intro member hmember
    refine ⟨?_, Codec.accepts_unknown⟩
    exact hcovers names (Document.mem_subschemas_of_value href (.inl rfl) hnames) _ _ hdomain _
      (hvalid.applies _ _ (.propertyName hnames hmember))

/-- Where the standard reading of a schema is the narrow one. -/
@[mk_iff]
structure Unmixed (schema : Document) : Prop where
  additional : schema.has "properties" = true →
    ∀ part ∈ schema.get? "additionalProperties", part.kind = .boolean
  required : schema.has "required" = true → schema.stringAt? "type" = some "object"
  items : ∀ list ∈ schema.get? "items", list.items = []

instance (schema : Document) : Decidable (Unmixed schema) :=
  decidable_of_iff' _ (unmixed_iff schema)

private theorem validates_additional {part piece : Document} {key : String}
    (hmixed : reading = .standard → Unmixed schema)
    (hpatterns : schema.get? "patternProperties" = none)
    (hpart : schema.get? "additionalProperties" = some part) (hopen : part ≠ .bool false)
    (hvalid : schema.Follows rules reading value) (hpiece : (key, piece) ∈ value.members) :
    part.Validates rules reading piece := by
  cases reading with
  | narrow => exact hvalid.applies _ _ (.additionalProperty hpart (.inr ⟨rfl, hopen⟩) hpiece)
  | standard =>
      cases hproperties : schema.get? "properties" with
      | none =>
          have hundeclared : ¬ schema.Declares rules key := by
            simp [Document.Declares, hproperties, hpatterns]
          exact hvalid.applies _ _ (.additionalProperty hpart (.inl hundeclared) hpiece)
      | some map =>
          have hkind := (hmixed rfl).additional
            (Document.has_eq_true_iff.mpr ⟨map, hproperties⟩) part hpart
          cases part with
          | bool accepts =>
              cases accepts with
              | true => exact Document.validates_bool.mpr rfl
              | false => exact absurd rfl hopen
          | _ => cases hkind

private theorem fromAdditionalProperties_accepts {codecs : List Codec}
    (href : schema.get? "$ref" = none)
    (hcovers : Covers allowed convert surroundings rules reading schema)
    (hmixed : reading = .standard → Unmixed schema)
    (hpatterns : schema.get? "patternProperties" = none)
    (h : (fromAdditionalProperties convert location schema).Gives allowed codecs)
    (hvalid : schema.Follows rules reading value) :
    ∀ codec ∈ codecs, codec.Accepts surroundings value := by
  rcases gives_fromAdditionalProperties.mp h with
    ⟨-, rfl⟩ | ⟨-, -, rfl⟩ | ⟨part, codec, htype, hpart, hopen, hgives, rfl⟩
  · exact List.forall_mem_nil _
  · exact List.forall_mem_nil _
  · rw [List.forall_mem_singleton, Codec.accepts_record]
    obtain ⟨members, rfl⟩ := hasType_of_asserts htype hvalid.asserts
    refine ⟨members, rfl, ?_⟩
    intro member hmember
    refine ⟨Codec.accepts_string.mpr ⟨member.1, rfl⟩, ?_⟩
    exact hcovers part (Document.mem_subschemas_of_value href (.inr rfl) hpart) _ _ hgives _
      (validates_additional hmixed hpatterns hpart hopen hvalid hmember)

private theorem fromRequired_accepts {codecs : List Codec}
    (hmixed : reading = .standard → Unmixed schema)
    (h : (fromRequired location schema).Gives allowed codecs)
    (hvalid : schema.Asserts rules reading value) :
    ∀ codec ∈ codecs, codec.Accepts surroundings value := by
  rcases gives_fromRequired.mp h with ⟨-, rfl⟩ | ⟨keys, hkeys, -, rfl⟩
  · exact List.forall_mem_nil _
  · rw [List.forall_mem_singleton, Codec.accepts_interface]
    obtain ⟨hnarrow, hpresent⟩ := hvalid.required _ hkeys
    have hobject : ∃ members, value = .object members := by
      cases reading with
      | narrow => exact hnarrow rfl
      | standard =>
          have hhas := Document.has_eq_true_iff.mpr ⟨_, hkeys⟩
          have htype := Document.stringAt?_eq_some_iff.mp ((hmixed rfl).required hhas)
          exact hasType_of_asserts htype hvalid
    refine ⟨hobject, ?_⟩
    intro property hproperty
    obtain ⟨key, hkey, rfl⟩ := List.mem_map.mp hproperty
    obtain ⟨members, hmembers⟩ := hobject
    obtain ⟨piece, hpiece⟩ := Document.has_eq_true_iff.mp
      (hpresent members hmembers key (List.mem_map_of_mem hkey))
    exact ⟨piece, hpiece, Codec.accepts_helper.mpr trivial⟩

private theorem fromObject_accepts {codecs : List Codec} (href : schema.get? "$ref" = none)
    (hcovers : Covers allowed convert surroundings rules reading schema)
    (hmixed : reading = .standard → Unmixed schema)
    (hpatterns : schema.get? "patternProperties" = none)
    (h : (fromObject convert location schema).Gives allowed codecs)
    (hvalid : schema.Follows rules reading value) :
    ∀ codec ∈ codecs, codec.Accepts surroundings value := by
  obtain ⟨properties, names, patterns, others, required, hproperties, hnames, hmatched, hothers,
    hrequired, rfl⟩ := gives_fromObject.mp h
  rcases gives_fromPatternProperties.mp hmatched with ⟨-, rfl⟩ | ⟨_, _, _, -, hsome, -⟩
  · rw [List.forall_mem_append, forall_mem_intersect_accepts, List.append_nil,
      List.forall_mem_append, List.forall_mem_append]
    exact ⟨⟨⟨fromProperties_accepts href hcovers hproperties hvalid,
      fromPropertyNames_accepts href hcovers hnames hvalid⟩,
      fromAdditionalProperties_accepts href hcovers hmixed hpatterns hothers hvalid⟩,
      fromRequired_accepts hmixed hrequired hvalid.asserts⟩
  · rw [hpatterns] at hsome
    cases hsome

/-! Arrays -/

/-- A closed list of item schemas calls for no more items than schemas. -/
theorem length_le_of_closed {schemas items : List Document}
    (hschemas : schema.get? "items" = some (.array schemas))
    (hclosed : schema.get? "additionalItems" = some (.bool false))
    (hvalid : schema.Follows rules reading (.array items)) : items.length ≤ schemas.length := by
  rw [← List.drop_eq_nil_iff]
  apply List.eq_nil_iff_forall_not_mem.mpr
  intro piece hpiece
  have hfalse := hvalid.applies _ _ (.additionalItem hschemas hclosed rfl hpiece)
  cases Document.validates_bool.mp hfalse

private theorem length_eq_of_closed {schemas items : List Document}
    (hmixed : reading = .standard → Unmixed schema)
    (hschemas : schema.get? "items" = some (.array schemas))
    (hclosed : schema.get? "additionalItems" = some (.bool false))
    (hvalid : schema.Follows rules reading (.array items)) : schemas.length = items.length := by
  have hmost := length_le_of_closed hschemas hclosed hvalid
  cases reading with
  | narrow => exact Nat.le_antisymm (hvalid.asserts.places rfl _ _ hschemas rfl) hmost
  | standard =>
      have hnone : schemas = [] := (hmixed rfl).items _ hschemas
      rw [hnone] at hmost ⊢
      exact (Nat.le_zero.mp hmost).symm

private theorem fromItems_accepts {codecs : List Codec} (href : schema.get? "$ref" = none)
    (hcovers : Covers allowed convert surroundings rules reading schema)
    (hmixed : reading = .standard → Unmixed schema)
    (h : (fromItems convert location schema).Gives allowed codecs)
    (hvalid : schema.Follows rules reading value) :
    ∀ codec ∈ codecs, codec.Accepts surroundings value := by
  rcases gives_fromItems.mp h with ⟨-, rfl⟩ | ⟨htype, hitems⟩
  · exact List.forall_mem_nil _
  · obtain ⟨items, rfl⟩ := hasType_of_asserts htype hvalid.asserts
    rcases hitems with ⟨-, rfl⟩ | ⟨hnone, rfl⟩ | ⟨schemas, parts, hschemas, hclosed, hparts, rfl⟩ |
      ⟨part, codec, hpart, hbool, hlist, hgives, rfl⟩
    · exact List.forall_mem_nil _
    · rw [List.forall_mem_singleton, Codec.accepts_tuple]
      have hempty : items = [] := by
        apply List.eq_nil_iff_forall_not_mem.mpr
        intro piece hpiece
        have hfalse := hvalid.applies _ _ (.item hnone (fun _ h => by cases h) rfl hpiece)
        cases Document.validates_bool.mp hfalse
      exact ⟨items, rfl, hempty ▸ .nil⟩
    · rw [List.forall_mem_singleton, Codec.accepts_tuple]
      refine ⟨items, rfl, ?_⟩
      have hlength := length_eq_of_closed hmixed hschemas hclosed hvalid
      have hgives := gives_of_convertList hparts
      rw [List.forall₂_iff_get] at hgives ⊢
      obtain ⟨hcount, hgives⟩ := hgives
      refine ⟨hcount.symm.trans hlength, ?_⟩
      intro index hindex hpiece
      obtain ⟨place, hplace⟩ := hgives index (hcount ▸ hindex) hindex
      have hpair : (schemas.get ⟨index, hcount ▸ hindex⟩, items.get ⟨index, hpiece⟩) ∈
          schemas.zip items := by
        apply List.mem_iff_getElem.mpr
        refine ⟨index, ?_, List.getElem_zip⟩
        rw [List.length_zip]
        omega
      exact hcovers _ (Document.mem_subschemas_of_items href hschemas (List.get_mem ..)) _ _ hplace
        _ (hvalid.applies _ _ (.itemAt hschemas rfl hpair))
    · rw [List.forall_mem_singleton, Codec.accepts_array]
      refine ⟨items, rfl, ?_⟩
      intro piece hpiece
      exact hcovers part (Document.mem_subschemas_of_item href hpart hlist) _ _ hgives piece
        (hvalid.applies _ _ (.item hpart hlist rfl hpiece))

/-! Values -/

private theorem fromEnum_accepts {codecs : List Codec}
    (h : (fromEnum scope location schema).Gives allowed codecs)
    (hvalid : schema.Asserts rules reading value) :
    ∀ codec ∈ codecs, codec.Accepts surroundings value := by
  rcases gives_fromEnum.mp h with ⟨-, rfl⟩ | ⟨values, parts, hvalues, hparts, rfl⟩
  · exact List.forall_mem_nil _
  · obtain ⟨item, hitem, hsame⟩ := hvalid.enum _ hvalues
    obtain ⟨codec, hcodec, index, hgives⟩ :=
      exists_right_of_forall₂ (forall₂_zipIdx (gives_each.mp hparts)) hitem
    rw [forall_mem_unite_accepts]
    exact .inr ⟨codec, hcodec,
      (accepts_of_valueCodec? (valueCodec?_of_gives_enumMember hgives)).mpr hsame⟩

theorem fromConst_accepts {codecs : List Codec}
    (h : (fromConst location schema).Gives allowed codecs)
    (hvalid : ∀ item, schema.get? "const" = some item → item.Same value) :
    ∀ codec ∈ codecs, codec.Accepts surroundings value := by
  rcases gives_fromConst.mp h with ⟨-, rfl⟩ | ⟨item, literal, hitem, hliteral, rfl⟩
  · exact List.forall_mem_nil _
  · rw [List.forall_mem_singleton, Codec.accepts_literal, accepts_of_literal? hliteral]
    exact hvalid item hitem

/-! Combinations -/

private theorem fromAllOf_accepts {codecs : List Codec} (href : schema.get? "$ref" = none)
    (hcovers : Covers allowed convert surroundings rules reading schema)
    (h : (fromAll convert "allOf" location schema).Gives allowed codecs)
    (hvalid : schema.Follows rules reading value) :
    ∀ codec ∈ intersect codecs, codec.Accepts surroundings value := by
  rw [forall_mem_intersect_accepts]
  rcases gives_fromAll.mp h with ⟨-, rfl⟩ | ⟨schemas, hschemas, hgives⟩
  · exact List.forall_mem_nil _
  · intro codec hcodec
    obtain ⟨part, hpart, place, hplace⟩ :=
      exists_left_of_forall₂ (gives_of_convertList hgives) hcodec
    exact hcovers part (Document.mem_subschemas_of_list href (.inl rfl) hschemas hpart) _ _ hplace
      _ (hvalid.applies _ _ (.allOf hschemas hpart))

/-- A choice of schemas accepts what one of them validates. -/
theorem fromAll_accepts_choice {keyword : String} {codecs : List Codec}
    (href : schema.get? "$ref" = none) (hkeyword : keyword = "anyOf" ∨ keyword = "oneOf")
    (hcovers : Covers allowed convert surroundings rules reading schema)
    (h : (fromAll convert keyword location schema).Gives allowed codecs)
    (hvalid : ∀ list, schema.get? keyword = some list →
      ∃ part ∈ list.items, part.Validates rules reading value) :
    ∀ codec ∈ unite codecs, codec.Accepts surroundings value := by
  rw [forall_mem_unite_accepts]
  rcases gives_fromAll.mp h with ⟨-, rfl⟩ | ⟨schemas, hschemas, hgives⟩
  · exact .inl rfl
  · obtain ⟨part, hpart, hpiece⟩ := hvalid _ hschemas
    obtain ⟨codec, hcodec, place, hplace⟩ :=
      exists_right_of_forall₂ (gives_of_convertList hgives) hpart
    have hsub := Document.mem_subschemas_of_list href (.inr hkeyword) hschemas hpart
    exact .inr ⟨codec, hcodec, hcovers part hsub _ _ hplace value hpiece⟩

/-! Whole schemas -/

private theorem contributions_accept (href : schema.get? "$ref" = none)
    (hcovers : Covers allowed convert surroundings rules reading schema)
    (hmixed : reading = .standard → Unmixed schema)
    (hpatterns : schema.get? "patternProperties" = none)
    (parts : Contributions allowed scope convert location schema)
    (hvalid : schema.Follows rules reading value) :
    ∀ codec ∈ parts.all, codec.Accepts surroundings value := by
  have hitems := (gives_fromArray.mp parts.gives_array).1
  have hone : ∀ list, schema.get? "oneOf" = some list →
      ∃ part ∈ list.items, part.Validates rules reading value := by
    intro list hlist
    obtain ⟨index, hindex, -⟩ := hvalid.oneOf list hlist
    exact ⟨_, List.get_mem .., hindex⟩
  simp only [Contributions.all, List.forall_mem_append]
  exact ⟨⟨⟨⟨⟨⟨⟨fromType_accepts parts.gives_types (type_of_hasObjectShape parts.gives_object)
      (type_of_hasArrayShape hitems) hvalid.asserts.type,
    fromObject_accepts href hcovers hmixed hpatterns parts.gives_object hvalid⟩,
    fromItems_accepts href hcovers hmixed hitems hvalid⟩,
    fromEnum_accepts parts.gives_enum hvalid.asserts⟩,
    fromConst_accepts parts.gives_const hvalid.asserts.const⟩,
    fromAllOf_accepts href hcovers parts.gives_allOf hvalid⟩,
    fromAll_accepts_choice href (.inl rfl) hcovers parts.gives_anyOf hvalid.anyOf⟩,
    fromAll_accepts_choice href (.inr rfl) hcovers parts.gives_oneOf hone⟩

theorem accepts_of_validates {isTop : Bool} {codec : Codec}
    (hpatterns : ¬ allowed (.reported (.warning "patternProperty support has limitations")))
    (href : schema.Everywhere fun position => position.get? "$ref" = none)
    (hmixed : reading = .standard → schema.Everywhere Unmixed)
    (h : (compile scope isTop location schema).Gives allowed codec)
    (hvalid : schema.Validates rules reading value) : codec.Accepts surroundings value := by
  induction schema using Document.subschemas_induction
    generalizing value isTop location codec with
  | step schema ih =>
      rcases isSchema_of_gives_compile h with ⟨accepts, rfl⟩ | ⟨members, rfl⟩
      · rw [(gives_compile_bool.mp h).2, Document.validates_bool.mp hvalid]
        exact Codec.accepts_unknown
      · have hnone := href.here
        obtain ⟨-, -, parts, hcompose⟩ := (gives_compile_object hnone).mp h
        have hcovers : Covers allowed (compile scope false) surroundings rules reading
            (.object members) := by
          intro part hpart place codec hgives piece hpiece
          exact ih part hpart (href.below hpart)
            (fun hreading => (hmixed hreading).below hpart) hgives hpiece
        -- Patterns are never converted without the warning that is excluded here.
        have hnopatterns : (Document.object members).get? "patternProperties" = none := by
          obtain ⟨_, _, _, _, _, -, -, hmatched, -⟩ := gives_fromObject.mp parts.gives_object
          rcases gives_fromPatternProperties.mp hmatched with
            ⟨habsent, -⟩ | ⟨_, _, _, -, -, hwarning, -⟩
          · exact habsent
          · exact absurd hwarning hpatterns
        rw [accepts_of_gives_compose hcompose]
        exact contributions_accept hnone hcovers (fun hreading => (hmixed hreading).here)
          hnopatterns parts ((Document.validates_object_iff hnone).mp hvalid)

end

end SchemaCodec.Conversion
