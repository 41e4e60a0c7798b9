import SchemaCodec.Proofs.Conversion.Unfolding
import SchemaCodec.Proofs.Text.Splitting
import SchemaCodec.Codec.Dependencies

namespace SchemaCodec

/-! A codec mentions every definition that its schema refers to. -/

namespace Reference

theorem parse_file {file : String} (hhash : '#' ∉ file.toList) :
    parse file = .ok ⟨file, Name.ofFilePath file⟩ := by
  rw [parse, Text.splitOn_of_not_mem hhash]

theorem parse_definitionOf {file key : String} (hfile : '#' ∉ file.toList)
    (hslash : '/' ∉ key.toList) (hhash : '#' ∉ key.toList) :
    parse (file ++ "#/definitions/" ++ key) = .ok ⟨file, Name.ofKebab key⟩ := by
  have hfragment : '#' ∉ '/' :: ("definitions".toList ++ '/' :: key.toList) := by
    simp [hhash]
  have hkeyword : '/' ∉ "definitions".toList := by decide
  have hparts : Text.splitOn '#' (file ++ "#/definitions/" ++ key).toList =
      [file.toList, '/' :: ("definitions".toList ++ '/' :: key.toList)] := by
    rw [String.toList_append, String.toList_append, List.append_assoc]
    exact (Text.splitOn_append_cons hfile).trans
      (congrArg _ (Text.splitOn_of_not_mem hfragment))
  have hsteps : Text.splitOn '/' ('/' :: ("definitions".toList ++ '/' :: key.toList)) =
      [[], "definitions".toList, key.toList] := by
    refine (Text.splitOn_append_cons List.not_mem_nil).trans ?_
    rw [Text.splitOn_append_cons hkeyword, Text.splitOn_of_not_mem hslash]
  rw [parse, hparts]
  simp only [hsteps, String.ofList_toList]
  rfl

theorem parse_definition {key : String} (hslash : '/' ∉ key.toList) (hhash : '#' ∉ key.toList) :
    parse ("#/definitions/" ++ key) = .ok ⟨"", Name.ofKebab key⟩ := by
  have hparse := @parse_definitionOf "" key List.not_mem_nil hslash hhash
  rwa [String.empty_append] at hparse

end Reference

namespace Codec

private theorem mem_memberReferences {members : List Codec} {name : String} :
    name ∈ memberReferences members ↔ ∃ member ∈ members, name ∈ member.references := by
  induction members with
  | nil => exact ⟨nofun, by simp⟩
  | cons member rest ih =>
      change name ∈ member.references ++ memberReferences rest ↔ _
      simp [ih]

private theorem mem_propertyReferences {properties : List (Property Codec)} {name : String} :
    name ∈ propertyReferences properties ↔
      ∃ property ∈ properties, name ∈ property.type.references := by
  induction properties with
  | nil => exact ⟨nofun, by simp⟩
  | cons property rest ih =>
      change name ∈ property.type.references ++ propertyReferences rest ↔ _
      simp [ih]

end Codec

namespace Conversion

variable {allowed : Event → Prop} {scope : Scope} {convert : Converter} {location : Location}
  {schema part : Document} {name : String}

def Mentions (codecs : List Codec) (name : String) : Prop :=
  ∃ codec ∈ codecs, name ∈ codec.references

private theorem mentions_singleton {codec : Codec} :
    Mentions [codec] name ↔ name ∈ codec.references := by
  simp [Mentions]

private theorem mentions_append {first second : List Codec} :
    Mentions (first ++ second) name ↔ Mentions first name ∨ Mentions second name := by
  simp only [Mentions, List.mem_append, or_and_right, exists_or]

theorem Mentions.unite {codecs : List Codec} (h : Mentions codecs name) :
    Mentions (Conversion.unite codecs) name := by
  match codecs with
  | [] => exact h
  | [_] => exact h
  | _ :: _ :: _ => exact mentions_singleton.mpr (Codec.mem_memberReferences.mpr h)

theorem Mentions.intersect {codecs : List Codec} (h : Mentions codecs name) :
    Mentions (Conversion.intersect codecs) name := by
  match codecs with
  | [] => exact h
  | [_] => exact h
  | _ :: _ :: _ => exact mentions_singleton.mpr (Codec.mem_memberReferences.mpr h)

theorem Mentions.compose {codecs : List Codec} {codec : Codec} (h : Mentions codecs name)
    (hgives : (Conversion.compose location schema codecs).Gives allowed codec) :
    name ∈ codec.references := by
  rcases gives_compose.mp hgives with ⟨rfl, -⟩ | rfl | ⟨-, rfl⟩
  · obtain ⟨codec, hcodec, -⟩ := h
    cases hcodec
  · exact mentions_singleton.mp h
  · exact Codec.mem_memberReferences.mpr h

/-! What one schema below contributes -/

/-- The schema below is converted, and its codec is part of the given codecs. -/
def Keeps (allowed : Event → Prop) (convert : Converter) (codecs : List Codec)
    (part : Document) : Prop :=
  ∃ place codec, (convert place part).Gives allowed codec ∧
    ∀ name ∈ codec.references, Mentions codecs name

theorem Keeps.imp {codecs others : List Codec} (h : Keeps allowed convert codecs part)
    (hsub : ∀ name, Mentions codecs name → Mentions others name) :
    Keeps allowed convert others part := by
  obtain ⟨place, codec, hgives, hnames⟩ := h
  exact ⟨place, codec, hgives, fun name hname => hsub name (hnames name hname)⟩

private theorem keeps_property {codecs : List Codec} {map : Document} {key : String}
    (h : (fromProperties convert location schema).Gives allowed codecs)
    (hmap : schema.get? "properties" = some map) (hpart : (key, part) ∈ map.members) :
    Keeps allowed convert codecs part := by
  rcases gives_fromProperties.mp h with ⟨hnone, -⟩ | ⟨members, parts, -, hmembers, hparts, rfl⟩
  · rw [hmap] at hnone
    cases hnone
  · cases hmap.symm.trans hmembers
    obtain ⟨codec, hcodec, -, hgives⟩ :=
      exists_right_of_forall₂ (gives_convertMap.mp hparts) hpart
    refine ⟨_, codec.2, hgives, ?_⟩
    intro name hname
    have hshape : name ∈ Codec.propertyReferences
        (parts.map fun part => Codec.Property.plain part.1 part.2) :=
      Codec.mem_propertyReferences.mpr ⟨_, List.mem_map_of_mem hcodec, hname⟩
    rw [mentions_singleton, propertiesCodec]
    split
    · exact hshape
    · exact hshape

private theorem keeps_propertyNames {codecs : List Codec}
    (h : (fromPropertyNames convert location schema).Gives allowed codecs)
    (hpart : schema.get? "propertyNames" = some part) : Keeps allowed convert codecs part := by
  rcases gives_fromPropertyNames.mp h with ⟨hnone, -⟩ | ⟨names, domain, -, hnames, hgives, rfl⟩
  · rw [hpart] at hnone
    cases hnone
  · cases hpart.symm.trans hnames
    refine ⟨_, domain, hgives, ?_⟩
    intro name hname
    exact mentions_singleton.mpr (List.mem_append_left _ hname)

private theorem keeps_patternProperty {codecs : List Codec} {map : Document} {pattern : String}
    (h : (fromPatternProperties convert location schema).Gives allowed codecs)
    (hmap : schema.get? "patternProperties" = some map) (hpart : (pattern, part) ∈ map.members) :
    Keeps allowed convert codecs part := by
  rcases gives_fromPatternProperties.mp h with
    ⟨hnone, -⟩ | ⟨patterns, named, found, -, hpatterns, -, -, hfound, rfl⟩
  · rw [hmap] at hnone
    cases hnone
  · cases hmap.symm.trans hpatterns
    obtain ⟨codec, hcodec, -, hgives⟩ :=
      exists_right_of_forall₂ (gives_convertMap.mp hfound) hpart
    refine ⟨_, codec.2, hgives, ?_⟩
    intro name hname
    have hmentions : Mentions ((named ++ found).map Prod.snd) name :=
      ⟨codec.2, List.mem_map_of_mem (List.mem_append_right _ hcodec), hname⟩
    obtain ⟨united, hunited, hmember⟩ := hmentions.unite
    exact ⟨_, List.mem_map_of_mem hunited, List.mem_append_right _ hmember⟩

private theorem keeps_additionalProperties {codecs : List Codec}
    (h : (fromAdditionalProperties convert location schema).Gives allowed codecs)
    (hpart : schema.get? "additionalProperties" = some part)
    (hbool : ∀ accepts, part ≠ .bool accepts) : Keeps allowed convert codecs part := by
  rcases gives_fromAdditionalProperties.mp h with
    ⟨hnone, -⟩ | ⟨-, hfalse, -⟩ | ⟨found, codec, -, hfound, -, hgives, rfl⟩
  · rw [hpart] at hnone
    cases hnone
  · exact absurd (Option.some.inj (hpart.symm.trans hfalse)) (hbool false)
  · cases hpart.symm.trans hfound
    refine ⟨_, codec, hgives, ?_⟩
    intro name hname
    exact mentions_singleton.mpr (List.mem_append_right _ hname)

private theorem keeps_listed {codecs : List Codec} {keyword : String} {schemas : List Document}
    (h : (convertList convert keyword location schemas).Gives allowed codecs)
    (hpart : part ∈ schemas) : Keeps allowed convert codecs part := by
  obtain ⟨codec, hcodec, place, hgives⟩ := exists_right_of_forall₂ (gives_of_convertList h) hpart
  exact ⟨place, codec, hgives, fun name hname => ⟨codec, hcodec, hname⟩⟩

private theorem keeps_items {codecs : List Codec} {list : Document}
    (h : (fromItems convert location schema).Gives allowed codecs)
    (hlist : schema.get? "items" = some list) (hpart : part ∈ list.oneOrMany)
    (hbool : ∀ accepts, part ≠ .bool accepts) : Keeps allowed convert codecs part := by
  rcases gives_fromItems.mp h with ⟨hnone, -⟩ | ⟨-, hitems⟩
  · rw [hlist] at hnone
    cases hnone
  · rcases hitems with ⟨hfound, -⟩ | ⟨hfound, -⟩ | ⟨schemas, parts, hfound, -, hgives, rfl⟩ |
      ⟨item, codec, hfound, -, hschemas, hgives, rfl⟩
    · cases hlist.symm.trans hfound
      exact absurd (List.mem_singleton.mp hpart) (hbool true)
    · cases hlist.symm.trans hfound
      exact absurd (List.mem_singleton.mp hpart) (hbool false)
    · cases hlist.symm.trans hfound
      refine (keeps_listed hgives hpart).imp ?_
      intro name hmentions
      exact mentions_singleton.mpr (Codec.mem_memberReferences.mpr hmentions)
    · cases hlist.symm.trans hfound
      have hsame : part = list := by
        cases list with
        | array schemas => exact absurd rfl (hschemas schemas)
        | _ => exact List.mem_singleton.mp hpart
      subst hsame
      exact ⟨_, codec, hgives, fun name hname => mentions_singleton.mpr hname⟩

private theorem keeps_choice {codecs : List Codec} {keyword : String} {list : Document}
    (h : (fromAll convert keyword location schema).Gives allowed codecs)
    (hlist : schema.get? keyword = some list) (hpart : part ∈ list.items) :
    Keeps allowed convert codecs part := by
  rcases gives_fromAll.mp h with ⟨hnone, -⟩ | ⟨schemas, hschemas, hgives⟩
  · rw [hlist] at hnone
    cases hnone
  · cases hlist.symm.trans hschemas
    exact keeps_listed hgives hpart

private theorem keeps_of_fromObject {codecs : List Codec}
    (h : (fromObject convert location schema).Gives allowed codecs)
    (hpart : part ∈ schema.schemasIn "properties" ∨ schema.get? "propertyNames" = some part ∨
      part ∈ schema.schemasIn "patternProperties" ∨
      schema.get? "additionalProperties" = some part)
    (hbool : ∀ accepts, part ≠ .bool accepts) : Keeps allowed convert codecs part := by
  obtain ⟨properties, names, patterns, others, required, hproperties, hnames, hpatterns, hothers,
    -, rfl⟩ := gives_fromObject.mp h
  suffices hkeeps : Keeps allowed convert (properties ++ names ++ patterns ++ others) part from
    hkeeps.imp fun name hmentions => mentions_append.mpr (.inl hmentions.intersect)
  rcases hpart with hpart | hpart | hpart | hpart
  · obtain ⟨map, key, hmap, hmember⟩ := Document.mem_schemasIn.mp hpart
    refine (keeps_property hproperties hmap hmember).imp ?_
    intro name hmentions
    simp only [mentions_append, hmentions, true_or]
  · refine (keeps_propertyNames hnames hpart).imp ?_
    intro name hmentions
    simp only [mentions_append, hmentions, true_or, or_true]
  · obtain ⟨map, key, hmap, hmember⟩ := Document.mem_schemasIn.mp hpart
    refine (keeps_patternProperty hpatterns hmap hmember).imp ?_
    intro name hmentions
    simp only [mentions_append, hmentions, true_or, or_true]
  · refine (keeps_additionalProperties hothers hpart hbool).imp ?_
    intro name hmentions
    simp only [mentions_append, hmentions, or_true]

theorem Contributions.keeps (parts : Contributions allowed scope convert location schema)
    (href : schema.get? "$ref" = none) (hpart : part ∈ schema.subschemas)
    (hbool : ∀ accepts, part ≠ .bool accepts) : Keeps allowed convert parts.all part := by
  have hobject : ∀ name, Mentions parts.object name → Mentions parts.all name := by
    intro name hmentions
    simp only [Contributions.all, mentions_append, hmentions, true_or, or_true]
  rcases (Document.mem_subschemas href).mp hpart with
    h | h | h | h | ⟨list, hlist, h⟩ | h | h | h
  · exact (keeps_of_fromObject parts.gives_object (.inl h) hbool).imp hobject
  · exact (keeps_of_fromObject parts.gives_object (.inr (.inl h)) hbool).imp hobject
  · exact (keeps_of_fromObject parts.gives_object (.inr (.inr (.inl h))) hbool).imp hobject
  · exact (keeps_of_fromObject parts.gives_object (.inr (.inr (.inr h))) hbool).imp hobject
  · refine (keeps_items (gives_fromArray.mp parts.gives_array).1 hlist h hbool).imp ?_
    intro name hmentions
    simp only [Contributions.all, mentions_append, hmentions, true_or, or_true]
  · obtain ⟨list, hlist, hmember⟩ := Document.mem_schemasOf.mp h
    refine (keeps_choice parts.gives_allOf hlist hmember).imp ?_
    intro name hmentions
    simp only [Contributions.all, mentions_append, hmentions.intersect, true_or, or_true]
  · obtain ⟨list, hlist, hmember⟩ := Document.mem_schemasOf.mp h
    refine (keeps_choice parts.gives_anyOf hlist hmember).imp ?_
    intro name hmentions
    simp only [Contributions.all, mentions_append, hmentions.unite, true_or, or_true]
  · obtain ⟨list, hlist, hmember⟩ := Document.mem_schemasOf.mp h
    refine (keeps_choice parts.gives_oneOf hlist hmember).imp ?_
    intro name hmentions
    simp only [Contributions.all, mentions_append, hmentions.unite, or_true]

/-! References at any depth -/

theorem fromReference_definition {text : String} {codec : Codec}
    (h : (fromReference scope location schema text).Gives allowed codec)
    (htext : Reference.parse text = .ok ⟨"", name⟩) : name ∈ codec.references := by
  have hcodec : codec = .custom name name [name] := by
    unfold fromReference at h
    simp only [htext] at h
    split at h
    · simp only [gives_bind, gives_warn] at h
      obtain ⟨-, -, h⟩ := h
      exact (gives_return.mp h).symm
    · exact (gives_return.mp h).symm
  rw [hcodec]
  exact List.mem_singleton_self name

/-- The codec of a schema mentions all definitions that the schema refers to, at any depth. -/
theorem mem_references_of_reaches {isTop : Bool} {codec : Codec} {position : Document}
    {text : String} (h : (compile scope isTop location schema).Gives allowed codec)
    (hposition : schema.Reaches position)
    (href : position.get? "$ref" = some (.string text))
    (htext : Reference.parse text = .ok ⟨"", name⟩) : name ∈ codec.references := by
  induction schema using Document.subschemas_induction
    generalizing isTop location codec with
  | step schema ih =>
      rcases isSchema_of_gives_compile h with ⟨accepts, rfl⟩ | ⟨members, rfl⟩
      · rw [Document.reaches_bool hposition] at href
        cases href
      · rcases hposition.cases_head with rfl | ⟨part, hpart, hreaches⟩
        · obtain ⟨-, found, hfound, hgives⟩ := (gives_compile_reference href).mp h
          cases hfound
          exact fromReference_definition hgives htext
        · have hnone : (Document.object members).get? "$ref" = none := by
            cases hget : (Document.object members).get? "$ref" with
            | none => rfl
            | some target => simp [Document.subschemas, Document.has, hget] at hpart
          have hbool : ∀ accepts, part ≠ .bool accepts := by
            intro accepts heq
            subst part
            rw [Document.reaches_bool hreaches] at href
            cases href
          obtain ⟨-, -, parts, hcompose⟩ := (gives_compile_object hnone).mp h
          obtain ⟨place, below, hgives, hkept⟩ := parts.keeps hnone hpart hbool
          exact (hkept name (ih part hpart hgives hreaches)).compose hcompose

end Conversion

end SchemaCodec
