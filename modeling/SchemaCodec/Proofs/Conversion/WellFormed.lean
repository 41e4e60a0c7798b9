import SchemaCodec.Codec.Dialect
import SchemaCodec.Proofs.Conversion.Accounting
import SchemaCodec.Proofs.Conversion.Unfolding

namespace SchemaCodec

/-! The codecs of schemas are well-formed trees, so they can be written in all dialects. -/

namespace Codec

/-- The nodes that schemas are converted to. -/
inductive Proper : Codec → Prop
  | primitive (p : Primitive) : Proper (.primitive p)
  | stringLiteral (text : String) : Proper (.literal (.string text))
  | numberLiteral (text : String) : Proper (.literal (.number text))
  | boolLiteral (value : Bool) : Proper (.literal (.bool value))
  | interface {properties : List (Property Codec)}
      (defined : ∀ property ∈ properties, property.type = ofHelper .defined) :
      Proper (.object .interface properties)
  | partialOf (properties : List (Property Codec)) : Proper (.object .partialOf properties)
  | exact (properties : List (Property Codec)) : Proper (exact (.object .partialOf properties))
  | array (item : Codec) : Proper (array item)
  | tuple (items : List Codec) : Proper (tuple items)
  | record (domain codomain : Codec) : Proper (.record domain codomain)
  | union {members : List Codec} (several : 2 ≤ members.length) : Proper (union members)
  | intersection {members : List Codec} (several : 2 ≤ members.length) :
      Proper (intersection members)
  | custom (static runtime : String) (dependencies : List String) :
      Proper (.custom static runtime dependencies)

inductive Clean : Codec → Prop
  | intro {codec : Codec} (node : codec.Proper) (parts : ∀ part ∈ codec.children, Clean part) :
      Clean codec

theorem Clean.leaf {codec : Codec} (node : codec.Proper) (h : codec.children = []) :
    codec.Clean := by
  refine .intro node ?_
  rw [h]
  exact List.forall_mem_nil _

private theorem Clean.of_contains {codec node : Codec} (h : codec.Clean)
    (hnode : codec.Contains node) :
    node.Clean := by
  induction h with
  | intro here parts ih =>
      rcases contains_iff.mp hnode with rfl | ⟨part, hpart, hinside⟩
      · exact .intro here parts
      · exact ih part hpart hinside

/-! What holds at every node -/

def compiledKinds : List String :=
  ["string", "number", "boolean", "null", "unknown", "never", "unknown-array", "unknown-record",
   "literal", "interface", "partial", "exact", "array", "tuple", "record", "union", "intersection",
   "custom"]

/-- The source text of a codec, if there is no node of another kind in it. The node of a part that
was left out is of no kind. -/
def print? (dialect : Dialect) (codec : Codec) : Option String :=
  if ∀ node ∈ codec.nodes, node.kindName ∈ compiledKinds then some (codec.print dialect) else none

/-- A node over parts that fit it. -/
structure WellFormed (node : Codec) : Prop where
  complete : node ≠ .hole ∧ .hole ∉ node.children
  several : ∀ members, node = union members ∨ node = intersection members → 2 ≤ members.length
  exact : ∀ inner, node = exact inner → ∃ properties, inner = .object .partialOf properties
  interface : ∀ properties, node = .object .interface properties →
    ∀ property ∈ properties, property.type = .custom "Defined" "Defined" []
  literal : ∀ value, node = .literal value →
    (∃ text, value = .string text) ∨ (∃ text, value = .number text) ∨
      ∃ accepts, value = .bool accepts
  kind : node.kindName ∈ compiledKinds

private theorem Clean.ne_hole {codec : Codec} (h : codec.Clean) : codec ≠ .hole := by
  rintro rfl
  cases h with
  | intro node => cases node

private theorem kindName_mem_compiledKinds {node : Codec} {kind : Kind} (h : node.kind? = some kind)
    (hname : kind.name ∈ compiledKinds) : node.kindName ∈ compiledKinds := by
  unfold kindName
  rw [h]
  exact hname

private theorem Proper.kindName_mem {node : Codec} (h : node.Proper) :
    node.kindName ∈ compiledKinds := by
  cases h with
  | primitive p => cases p <;> decide
  | _ => exact kindName_mem_compiledKinds rfl (by decide)

theorem Clean.wellFormed {node : Codec} (h : node.Clean) : node.WellFormed := by
  have hpresent := h.ne_hole
  cases h with
  | intro hnode hparts =>
      refine ⟨⟨hpresent, fun hhole => ?_⟩, ?_, ?_, ?_, ?_, hnode.kindName_mem⟩
      · exact (hparts .hole hhole).ne_hole rfl
      · rintro members (rfl | rfl)
        · cases hnode with
          | union several => exact several
        · cases hnode with
          | intersection several => exact several
      · rintro inner rfl
        cases hnode with
        | exact properties => exact ⟨properties, rfl⟩
      · rintro properties rfl
        cases hnode with
        | interface defined => exact defined
      · rintro value rfl
        cases hnode with
        | stringLiteral text => exact .inl ⟨text, rfl⟩
        | numberLiteral text => exact .inr (.inl ⟨text, rfl⟩)
        | boolLiteral accepts => exact .inr (.inr ⟨accepts, rfl⟩)

end Codec

namespace Conversion

open Codec

/-! Conversion keeps to such trees. -/

variable {allowed : Event → Prop} {convert : Converter} {scope : Scope} {location : Location}
  {schema : Document} {codecs : List Codec}

private theorem clean_primitive (p : Primitive) : Clean (.primitive p) :=
  .leaf (.primitive p) rfl

private theorem clean_custom (static runtime : String) (dependencies : List String) :
    Clean (.custom static runtime dependencies) :=
  .leaf (.custom static runtime dependencies) rfl

private theorem clean_record {domain codomain : Codec} (hdomain : domain.Clean)
    (hcodomain : codomain.Clean) : Clean (.record domain codomain) := by
  refine .intro (.record domain codomain) ?_
  exact List.forall_mem_cons.mpr ⟨hdomain, List.forall_mem_singleton.mpr hcodomain⟩

private theorem clean_unite (h : ∀ codec ∈ codecs, codec.Clean) :
    ∀ codec ∈ unite codecs, codec.Clean := by
  rcases codecs with _ | ⟨first, _ | ⟨second, rest⟩⟩
  · exact h
  · exact h
  · exact List.forall_mem_singleton.mpr (.intro (.union (by simp)) h)

private theorem clean_intersect (h : ∀ codec ∈ codecs, codec.Clean) :
    ∀ codec ∈ intersect codecs, codec.Clean := by
  rcases codecs with _ | ⟨first, _ | ⟨second, rest⟩⟩
  · exact h
  · exact h
  · exact List.forall_mem_singleton.mpr (.intro (.intersection (by simp)) h)

private theorem clean_compose {codec : Codec} (h : ∀ codec ∈ codecs, codec.Clean)
    (hcodec : (compose location schema codecs).Gives allowed codec) : codec.Clean := by
  rcases gives_compose.mp hcodec with ⟨-, -, rfl⟩ | rfl | ⟨hseveral, rfl⟩
  · exact clean_primitive _
  · exact h codec (List.mem_singleton_self codec)
  · exact .intro (.intersection hseveral) h

/-! Types and values -/

private theorem clean_nullOf : (nullOf scope).Clean := by
  unfold nullOf
  split
  · exact clean_custom ..
  · exact clean_primitive _

private theorem clean_typeCodecs {name : String} :
    ∀ codec ∈ typeCodecs scope schema name, codec.Clean := by
  have hsingle : ∀ p : Primitive, ∀ codec ∈ [Codec.primitive p], codec.Clean :=
    fun p => List.forall_mem_singleton.mpr (clean_primitive p)
  unfold typeCodecs
  split
  case h_5 => exact List.forall_mem_singleton.mpr clean_nullOf
  case h_6 | h_7 =>
    split
    · exact List.forall_mem_nil _
    · exact hsingle _
  all_goals exact hsingle _

private theorem clean_fromType (h : (fromType scope schema).Gives allowed codecs) :
    ∀ codec ∈ codecs, codec.Clean := by
  rcases gives_fromType.mp h with ⟨-, rfl⟩ | ⟨type, parts, -, hparts, rfl⟩
  · exact List.forall_mem_nil _
  · apply clean_unite
    intro codec hcodec
    obtain ⟨part, hpart, hcodec⟩ := List.mem_flatten.mp hcodec
    obtain ⟨name, -, hname⟩ := exists_left_of_forall₂ hparts hpart
    rw [typeCodecs_of_gives hname] at hcodec
    exact clean_typeCodecs codec hcodec

private theorem clean_literal {value : Document} {literal : Literal}
    (h : literal? value = some literal) :
    Clean (.literal literal) := by
  cases value with
  | string text =>
      cases h
      exact .leaf (.stringLiteral text) rfl
  | number text =>
      cases h
      exact .leaf (.numberLiteral text) rfl
  | bool accepts =>
      cases h
      exact .leaf (.boolLiteral accepts) rfl
  | _ => cases h

private theorem clean_fromConst (h : (fromConst location schema).Gives allowed codecs) :
    ∀ codec ∈ codecs, codec.Clean := by
  rcases gives_fromConst.mp h with ⟨-, rfl⟩ | ⟨value, literal, -, hliteral, rfl⟩
  · exact List.forall_mem_nil _
  · exact List.forall_mem_singleton.mpr (clean_literal hliteral)

private theorem clean_enumMember {item : Document} {index : Nat} {codec : Codec}
    (h : (enumMember scope location (item, index)).Gives allowed codec) : codec.Clean := by
  have hvalue := valueCodec?_of_gives_enumMember h
  unfold valueCodec? at hvalue
  split at hvalue
  · cases hvalue
    exact clean_nullOf
  · obtain ⟨literal, hliteral, rfl⟩ := Option.map_eq_some_iff.mp hvalue
    exact clean_literal hliteral

private theorem clean_fromEnum (h : (fromEnum scope location schema).Gives allowed codecs) :
    ∀ codec ∈ codecs, codec.Clean := by
  rcases gives_fromEnum.mp h with ⟨-, rfl⟩ | ⟨values, parts, -, hparts, rfl⟩
  · exact List.forall_mem_nil _
  · apply clean_unite
    intro codec hcodec
    obtain ⟨item, -, hitem⟩ := exists_left_of_forall₂ (gives_each.mp hparts) hcodec
    exact clean_enumMember hitem

private theorem clean_fromRequired (h : (fromRequired location schema).Gives allowed codecs) :
    ∀ codec ∈ codecs, codec.Clean := by
  rcases gives_fromRequired.mp h with ⟨-, rfl⟩ | ⟨keys, -, -, rfl⟩
  · exact List.forall_mem_nil _
  · have hdefined : ∀ property ∈ keys.map definedProperty, property.type = ofHelper .defined :=
      List.forall_mem_map.mpr fun _ _ => rfl
    refine List.forall_mem_singleton.mpr (.intro (.interface hdefined) ?_)
    refine List.forall_mem_map.mpr fun property hproperty => ?_
    rw [hdefined property hproperty]
    exact clean_custom ..

/-! Schemas inside the schema -/

def Cleanly (allowed : Event → Prop) (convert : Converter) : Prop :=
  ∀ location schema codec, (convert location schema).Gives allowed codec → codec.Clean

section Parts

variable (hconvert : Cleanly allowed convert)

include hconvert

private theorem clean_convertList {keyword : String} {schemas : List Document}
    (h : (convertList convert keyword location schemas).Gives allowed codecs) :
    ∀ codec ∈ codecs, codec.Clean := by
  intro codec hcodec
  obtain ⟨part, -, place, hpart⟩ := exists_left_of_forall₂ (gives_of_convertList h) hcodec
  exact hconvert place part codec hpart

private theorem clean_convertMap {keyword : String} {members : List (String × Document)}
    {parts : List (String × Codec)}
    (h : (convertMap convert keyword location members).Gives allowed parts) :
    ∀ part ∈ parts, part.2.Clean := by
  intro part hpart
  obtain ⟨member, -, -, hmember⟩ := exists_left_of_forall₂ (gives_convertMap.mp h) hpart
  exact hconvert _ _ _ hmember

private theorem clean_fromProperties
    (h : (fromProperties convert location schema).Gives allowed codecs) :
    ∀ codec ∈ codecs, codec.Clean := by
  rcases gives_fromProperties.mp h with ⟨-, rfl⟩ | ⟨members, parts, -, -, hparts, rfl⟩
  · exact List.forall_mem_nil _
  · have hshape : Clean (.object .partialOf (parts.map fun part => .plain part.1 part.2)) := by
      refine .intro (.partialOf _) ?_
      refine List.forall_mem_map.mpr (List.forall_mem_map.mpr ?_)
      exact clean_convertMap hconvert hparts
    refine List.forall_mem_singleton.mpr ?_
    unfold propertiesCodec
    split
    · exact .intro (.exact _) (List.forall_mem_singleton.mpr hshape)
    · exact hshape

private theorem clean_fromPropertyNames
    (h : (fromPropertyNames convert location schema).Gives allowed codecs) :
    ∀ codec ∈ codecs, codec.Clean := by
  rcases gives_fromPropertyNames.mp h with ⟨-, rfl⟩ | ⟨names, domain, -, -, hdomain, rfl⟩
  · exact List.forall_mem_nil _
  · refine List.forall_mem_singleton.mpr ?_
    exact clean_record (hconvert _ _ _ hdomain) (clean_primitive _)

private theorem clean_fromPatternProperties
    (h : (fromPatternProperties convert location schema).Gives allowed codecs) :
    ∀ codec ∈ codecs, codec.Clean := by
  rcases gives_fromPatternProperties.mp h with
    ⟨-, rfl⟩ | ⟨patterns, named, matched, -, -, -, hnamed, hmatched, rfl⟩
  · exact List.forall_mem_nil _
  · have hparts : ∀ part ∈ named ++ matched, part.2.Clean :=
      List.forall_mem_append.mpr
        ⟨clean_convertMap hconvert hnamed, clean_convertMap hconvert hmatched⟩
    refine List.forall_mem_map.mpr fun codec hcodec => ?_
    exact clean_record (clean_primitive _)
      (clean_unite (List.forall_mem_map.mpr hparts) codec hcodec)

private theorem clean_fromAdditionalProperties
    (h : (fromAdditionalProperties convert location schema).Gives allowed codecs) :
    ∀ codec ∈ codecs, codec.Clean := by
  rcases gives_fromAdditionalProperties.mp h with
    ⟨-, rfl⟩ | ⟨-, -, rfl⟩ | ⟨value, codec, -, -, -, hcodec, rfl⟩
  · exact List.forall_mem_nil _
  · exact List.forall_mem_nil _
  · refine List.forall_mem_singleton.mpr ?_
    exact clean_record (clean_primitive _) (hconvert _ _ _ hcodec)

private theorem clean_fromObject (h : (fromObject convert location schema).Gives allowed codecs) :
    ∀ codec ∈ codecs, codec.Clean := by
  obtain ⟨properties, names, patterns, others, required, hproperties, hnames, hpatterns, hothers,
    hrequired, rfl⟩ := gives_fromObject.mp h
  have hshapes : ∀ codec ∈ properties ++ names ++ patterns ++ others, codec.Clean := by
    simp only [List.forall_mem_append]
    exact ⟨⟨⟨clean_fromProperties hconvert hproperties, clean_fromPropertyNames hconvert hnames⟩,
      clean_fromPatternProperties hconvert hpatterns⟩,
      clean_fromAdditionalProperties hconvert hothers⟩
  exact List.forall_mem_append.mpr ⟨clean_intersect hshapes, clean_fromRequired hrequired⟩

private theorem clean_fromItems (h : (fromItems convert location schema).Gives allowed codecs) :
    ∀ codec ∈ codecs, codec.Clean := by
  rcases gives_fromItems.mp h with ⟨-, rfl⟩ | ⟨-, ⟨-, rfl⟩ | ⟨-, rfl⟩ |
    ⟨schemas, parts, -, -, hparts, rfl⟩ | ⟨item, codec, -, -, -, hcodec, rfl⟩⟩
  · exact List.forall_mem_nil _
  · exact List.forall_mem_nil _
  · exact List.forall_mem_singleton.mpr (.leaf (.tuple []) rfl)
  · refine List.forall_mem_singleton.mpr (.intro (.tuple parts) ?_)
    exact clean_convertList hconvert hparts
  · refine List.forall_mem_singleton.mpr (.intro (.array codec) ?_)
    exact List.forall_mem_singleton.mpr (hconvert _ _ _ hcodec)

private theorem clean_fromAll {keyword : String}
    (h : (fromAll convert keyword location schema).Gives allowed codecs) :
    ∀ codec ∈ codecs, codec.Clean := by
  rcases gives_fromAll.mp h with ⟨-, rfl⟩ | ⟨schemas, -, hschemas⟩
  · exact List.forall_mem_nil _
  · exact clean_convertList hconvert hschemas

private theorem clean_contributions (parts : Contributions allowed scope convert location schema) :
    ∀ codec ∈ parts.all, codec.Clean := by
  simp only [Contributions.all, List.forall_mem_append]
  refine ⟨⟨⟨⟨⟨⟨⟨?_, ?_⟩, ?_⟩, ?_⟩, ?_⟩, ?_⟩, ?_⟩, ?_⟩
  · exact clean_fromType parts.gives_types
  · exact clean_fromObject hconvert parts.gives_object
  · exact clean_fromItems hconvert (gives_fromArray.mp parts.gives_array).1
  · exact clean_fromEnum parts.gives_enum
  · exact clean_fromConst parts.gives_const
  · exact clean_intersect (clean_fromAll hconvert parts.gives_allOf)
  · exact clean_unite (clean_fromAll hconvert parts.gives_anyOf)
  · exact clean_unite (clean_fromAll hconvert parts.gives_oneOf)

end Parts

private theorem clean_fromReference {text : String} {codec : Codec}
    (h : (fromReference scope location schema text).Gives allowed codec) : codec.Clean := by
  unfold fromReference at h
  replace h := gives_of_reportIf h
  split at h
  · simp only [errorCodec, gives_bind, gives_return] at h
    obtain ⟨-, -, rfl⟩ := h
    exact clean_custom ..
  · split at h
    · cases gives_return.mp h
      exact clean_custom ..
    · split at h
      · exact (gives_fail.mp h).elim
      · simp only [gives_bind, gives_return] at h
        obtain ⟨-, -, rfl⟩ := h
        exact clean_custom ..

private theorem cleanly_compileBy {isTop : Bool} (hconvert : Cleanly allowed convert) :
    Cleanly allowed (compileBy convert scope isTop) := by
  intro location schema codec h
  unfold compileBy at h
  split at h
  · simp only [gives_bind, gives_return] at h
    obtain ⟨-, -, rfl⟩ := h
    split
    · exact clean_primitive _
    · exact clean_primitive _
  · simp only [gives_bind] at h
    obtain ⟨-, -, reference, -, h⟩ := h
    cases reference with
    | some text => exact clean_fromReference h
    | none =>
        simp only [gives_bind, gives_contributions] at h
        obtain ⟨-, -, codecs, ⟨parts, rfl⟩, hcodec⟩ := h
        exact clean_compose (clean_contributions hconvert parts) hcodec
  · exact (gives_fail.mp h).elim

private theorem cleanly_compileWithin (depth : Nat) (isTop : Bool) :
    Cleanly allowed (compileWithin scope depth isTop) := by
  induction depth generalizing isTop with
  | zero =>
      intro location schema codec h
      exact (gives_fail.mp h).elim
  | succ depth ih => exact cleanly_compileBy (ih false)

/-- All nodes of the codec of a schema are well-formed, and it can be written in every dialect. -/
theorem compile_wellFormed {isTop : Bool} {codec : Codec}
    (h : (compile scope isTop location schema).result = .ok codec) :
    (∀ node, codec.Contains node → node.WellFormed) ∧
      ∀ dialect, codec.print? dialect = some (codec.print dialect) := by
  have hclean : codec.Clean :=
    cleanly_compileWithin _ isTop location schema codec (gives_anything_iff.mpr h)
  have hnodes : ∀ node, codec.Contains node → node.WellFormed := fun node hnode =>
    (hclean.of_contains hnode).wellFormed
  exact ⟨hnodes, fun dialect => if_pos fun node hnode => (hnodes node (mem_nodes.mp hnode)).kind⟩

def parcelScope : Scope :=
  ⟨true, ⟨"", "", [], 0, ""⟩⟩

def parcelSchema : Document :=
  .object [("type", .string "object"),
    ("properties", .object [
      ("id", .object [("$ref", .string "#/definitions/id")]),
      ("size", .object [("type", .string "array"), ("additionalItems", .bool false),
        ("items", .array
          [.object [("type", .array [.string "number", .string "null"])], .bool true])])]),
    ("additionalProperties", .bool false), ("required", .array [.string "id"]),
    ("anyOf", .array
      [.object [("enum", .array [.number "1", .null])], .object [("const", .bool true)]])]

def parcelCodec : Codec :=
  .intersection [
    .exact (.object .partialOf [
      .plain "id" (ofDefinition "Id"),
      .plain "size" (.tuple [.union [.number, ofHelper .null], .unknown])]),
    .object .interface [.plain "id" (ofHelper .defined)],
    .union [.union [.literal (.number "1"), ofHelper .null], .literal (.bool true)]]

theorem compile_wellFormed_parcelSchema :
    (compile parcelScope false .root parcelSchema).result = .ok parcelCodec ∧
      (∀ node, parcelCodec.Contains node → node.WellFormed) ∧
      ∀ dialect, parcelCodec.print? dialect = some (parcelCodec.print dialect) := by
  have h : (compile parcelScope false .root parcelSchema).result = .ok parcelCodec := by rfl
  exact ⟨h, compile_wellFormed h⟩

end Conversion

end SchemaCodec
