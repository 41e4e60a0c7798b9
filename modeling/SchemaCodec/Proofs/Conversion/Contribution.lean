import SchemaCodec.Proofs.Conversion.Outcome
import SchemaCodec.Proofs.Document.Nesting

namespace SchemaCodec.Conversion

/-! When the keywords of a schema contribute codecs, and which ones. -/

variable {allowed : Event → Prop} {convert : Converter} {scope : Scope} {location : Location}
  {schema : Document}

/-! Keywords that only stand beside a type -/

theorem gives_valueUnder {type keyword : String} {problem : Fault.Problem}
    {value : Option Document} :
    (valueUnder type keyword problem location schema).Gives allowed value ↔
      schema.get? keyword = value ∧
        (value.isSome → schema.get? "type" = some (.string type)) := by
  unfold valueUnder
  cases hkeyword : schema.get? keyword with
  | none =>
      rw [gives_pure]
      constructor
      · intro h
        subst h
        exact ⟨rfl, fun h => by simp at h⟩
      · exact And.left
  | some found =>
      simp only
      by_cases htype : schema.stringAt? "type" = some type
      · rw [if_pos htype, gives_pure]
        exact ⟨fun h => ⟨h, fun _ => Document.stringAt?_eq_some_iff.mp htype⟩, And.left⟩
      · rw [if_neg htype, gives_fail]
        constructor
        · exact False.elim
        · intro h
          obtain ⟨rfl, h⟩ := h
          exact htype (Document.stringAt?_eq_some_iff.mpr (h rfl))

theorem gives_objectKeyword {keyword : String} {value : Option Document} :
    (objectKeyword keyword location schema).Gives allowed value ↔
      schema.get? keyword = value ∧
        (value.isSome → schema.get? "type" = some (.string "object")) :=
  gives_valueUnder

theorem gives_schemaMap {keyword : String} {value : Option (List (String × Document))} :
    (schemaMap keyword location schema).Gives allowed value ↔
      schema.get? keyword = value.map .object ∧
        (value.isSome → schema.get? "type" = some (.string "object")) := by
  unfold schemaMap
  simp only [gives_bind, gives_objectKeyword]
  constructor
  · intro h
    obtain ⟨middle, ⟨hmiddle, htype⟩, h⟩ := h
    cases middle with
    | none =>
        rw [gives_return] at h
        subst value
        exact ⟨hmiddle, fun h => by simp at h⟩
    | some found =>
        cases found with
        | object members =>
            rw [gives_return] at h
            subst value
            exact ⟨hmiddle, fun _ => htype rfl⟩
        | _ => simp at h
  · intro h
    obtain ⟨hvalue, htype⟩ := h
    cases value with
    | none => exact ⟨none, ⟨hvalue, fun h => by simp at h⟩, by simp⟩
    | some members =>
        exact ⟨some (.object members), ⟨hvalue, fun _ => htype rfl⟩, by simp⟩

/-- A keyword that stands beside a type is absent, or present with that type. -/
theorem gives_bind_keyword {first : Conversion (Option α)} {next : Option α → Conversion β}
    {result : β} {keyword type : String} (wrap : α → Document)
    (hfirst : ∀ value, first.Gives allowed value ↔ schema.get? keyword = value.map wrap ∧
      (value.isSome → schema.get? "type" = some (.string type))) :
    (first >>= next).Gives allowed result ↔
      (schema.get? keyword = none ∧ (next none).Gives allowed result) ∨
      ∃ value, schema.get? "type" = some (.string type) ∧
        schema.get? keyword = some (wrap value) ∧ (next (some value)).Gives allowed result := by
  rw [gives_bind]
  simp only [hfirst]
  constructor
  · intro h
    obtain ⟨found, ⟨hkeyword, htype⟩, hnext⟩ := h
    cases found with
    | none => exact .inl ⟨hkeyword, hnext⟩
    | some value => exact .inr ⟨value, htype rfl, hkeyword, hnext⟩
  · intro h
    rcases h with ⟨hnone, hnext⟩ | ⟨value, htype, hkeyword, hnext⟩
    · exact ⟨none, ⟨hnone, fun h => by simp at h⟩, hnext⟩
    · exact ⟨some value, ⟨hkeyword, fun _ => htype⟩, hnext⟩

private theorem gives_bind_valueUnder {type keyword : String} {problem : Fault.Problem}
    {next : Option Document → Conversion α} {result : α} :
    (valueUnder type keyword problem location schema >>= next).Gives allowed result ↔
      (schema.get? keyword = none ∧ (next none).Gives allowed result) ∨
      ∃ value, schema.get? "type" = some (.string type) ∧ schema.get? keyword = some value ∧
        (next (some value)).Gives allowed result :=
  gives_bind_keyword id fun value => by rw [Option.map_id, id, gives_valueUnder]

private theorem gives_bind_schemaMap {keyword : String}
    {next : Option (List (String × Document)) → Conversion α} {result : α} :
    (schemaMap keyword location schema >>= next).Gives allowed result ↔
      (schema.get? keyword = none ∧ (next none).Gives allowed result) ∨
      ∃ members, schema.get? "type" = some (.string "object") ∧
        schema.get? keyword = some (.object members) ∧
        (next (some members)).Gives allowed result :=
  gives_bind_keyword .object fun _ => gives_schemaMap

/-! Lists and maps of schemas -/

theorem gives_convertMap {keyword : String} {members : List (String × Document)}
    {codecs : List (String × Codec)} :
    (convertMap convert keyword location members).Gives allowed codecs ↔
      List.Forall₂ (fun member codec => codec.1 = member.1 ∧
        (convert (location.down [keyword, member.1]) member.2).Gives allowed codec.2)
        members codecs := by
  unfold convertMap
  rw [gives_each]
  have hsame : ∀ (member : String × Document) (codec : String × Codec),
      (do
        let converted ← convert (location.down [keyword, member.1]) member.2
        return (member.1, converted) : Conversion (String × Codec)).Gives allowed codec ↔
      codec.1 = member.1 ∧
        (convert (location.down [keyword, member.1]) member.2).Gives allowed codec.2 := by
    intro member codec
    simp only [gives_bind, gives_return]
    constructor
    · intro h
      obtain ⟨converted, hconverted, rfl⟩ := h
      exact ⟨rfl, hconverted⟩
    · intro h
      exact ⟨codec.2, h.2, Prod.ext h.1.symm rfl⟩
  simp only [hsame]

theorem forall₂_zipIdx {related : α × Nat → β → Prop} {items : List α} {values : List β}
    {start : Nat} (h : List.Forall₂ related (items.zipIdx start) values) :
    List.Forall₂ (fun item value => ∃ index, related (item, index) value) items values := by
  induction items generalizing start values with
  | nil => rwa [List.zipIdx_nil, List.forall₂_nil_left_iff] at *
  | cons item rest ih =>
      rw [List.zipIdx_cons] at h
      cases h with
      | cons hfirst hothers => exact .cons ⟨start, hfirst⟩ (ih hothers)

theorem exists_forall₂_zipIdx {related : α × Nat → β → Prop} {items : List α} {start : Nat}
    (h : ∀ item ∈ items, ∀ index, ∃ value, related (item, index) value) :
    ∃ values, List.Forall₂ related (items.zipIdx start) values := by
  apply exists_forall₂
  intro entry hentry
  exact h entry.1 (List.fst_mem_of_mem_zipIdx hentry) entry.2

theorem gives_of_convertList {keyword : String} {schemas : List Document} {codecs : List Codec}
    (h : (convertList convert keyword location schemas).Gives allowed codecs) :
    List.Forall₂ (fun part codec => ∃ place, (convert place part).Gives allowed codec)
      schemas codecs := by
  refine (forall₂_zipIdx (gives_each.mp h)).imp ?_
  intro part codec hgives
  obtain ⟨index, hgives⟩ := hgives
  exact ⟨_, hgives⟩

/-! Types -/

def nullOf (scope : Scope) : Codec :=
  if scope.maskNull then .custom Helper.null.name Helper.null.name [] else .null

private theorem gives_helperCodec {helper : Helper} {codec : Codec} :
    (helperCodec helper).Gives allowed codec ↔
      codec = .custom helper.name helper.name [] ∧ allowed (.required (.helper helper)) := by
  unfold helperCodec
  simp only [gives_bind, gives_require, gives_return]
  constructor
  · intro h
    obtain ⟨_, hallowed, rfl⟩ := h
    exact ⟨rfl, hallowed⟩
  · intro h
    obtain ⟨rfl, hallowed⟩ := h
    exact ⟨(), hallowed, rfl⟩

private theorem gives_nullCodec {codec : Codec} :
    (nullCodec scope).Gives allowed codec ↔
      codec = nullOf scope ∧ (scope.maskNull = true → allowed (.required (.helper .null))) := by
  unfold nullCodec nullOf
  cases hmask : scope.maskNull with
  | true => simp [gives_helperCodec]
  | false => simp [eq_comm]

def typeCodecs (scope : Scope) (schema : Document) (name : String) : List Codec :=
  match name with
  | "string" => [.string]
  | "number" => [.number]
  | "integer" => [.number]
  | "boolean" => [.boolean]
  | "null" => [nullOf scope]
  | "array" => if hasArrayShape schema then [] else [.unknownArray]
  | "object" => if hasObjectShape schema then [] else [.unknownRecord]
  | _ => [.unknown]

theorem typeCodecs_of_gives {type : Document} {name : String} {codecs : List Codec}
    (h : (fromTypeName scope schema type name).Gives allowed codecs) :
    codecs = typeCodecs scope schema name := by
  unfold fromTypeName at h
  unfold typeCodecs
  split at h
  · exact (gives_pure.mp h).symm
  · exact (gives_pure.mp h).symm
  · exact (gives_pure.mp h).symm
  · exact (gives_pure.mp h).symm
  · simp only [gives_bind, gives_return, gives_nullCodec] at h
    obtain ⟨codec, ⟨rfl, -⟩, rfl⟩ := h
    rfl
  · exact (gives_pure.mp h).symm
  · exact (gives_pure.mp h).symm
  · simp only [gives_bind, gives_return] at h
    obtain ⟨-, -, rfl⟩ := h
    simp

theorem typeCodecs_eq_nil {name : String} (h : typeCodecs scope schema name = []) :
    name = "array" ∧ hasArrayShape schema = true ∨
      name = "object" ∧ hasObjectShape schema = true := by
  unfold typeCodecs at h
  split at h
  · cases h
  · cases h
  · cases h
  · cases h
  · cases h
  · refine .inl ⟨rfl, ?_⟩
    by_contra hshape
    rw [if_neg hshape] at h
    cases h
  · refine .inr ⟨rfl, ?_⟩
    by_contra hshape
    rw [if_neg hshape] at h
    cases h
  · cases h

def knownTypes : List String :=
  ["string", "number", "integer", "boolean", "null", "array", "object"]

theorem gives_fromTypeName_of_known {type : Document} {name : String}
    (hrequired : ∀ requirement, allowed (.required requirement)) (hname : name ∈ knownTypes) :
    (fromTypeName scope schema type name).Gives allowed (typeCodecs scope schema name) := by
  simp only [knownTypes, List.mem_cons, List.not_mem_nil, or_false] at hname
  rcases hname with rfl | rfl | rfl | rfl | rfl | rfl | rfl
  · exact gives_pure.mpr rfl
  · exact gives_pure.mpr rfl
  · exact gives_pure.mpr rfl
  · exact gives_pure.mpr rfl
  · simp only [fromTypeName, gives_bind, gives_return, gives_nullCodec]
    exact ⟨nullOf scope, ⟨rfl, fun _ => hrequired _⟩, rfl⟩
  · exact gives_pure.mpr rfl
  · exact gives_pure.mpr rfl

theorem gives_fromType {codecs : List Codec} :
    (fromType scope schema).Gives allowed codecs ↔
      (schema.get? "type" = none ∧ codecs = []) ∨
      ∃ type parts, schema.get? "type" = some type ∧
        List.Forall₂ (fun name part =>
          (fromTypeName scope schema type (name.string?.getD "")).Gives allowed part)
          type.oneOrMany parts ∧
        codecs = unite parts.flatten := by
  unfold fromType
  cases htype : schema.get? "type" with
  | none => simp [eq_comm]
  | some type =>
      simp only [gives_bind, gives_return, gives_each]
      constructor
      · intro h
        obtain ⟨parts, hparts, rfl⟩ := h
        refine .inr ⟨type, parts, rfl, ?_, rfl⟩
        cases type <;> exact hparts
      · intro h
        rcases h with ⟨hnone, -⟩ | ⟨found, parts, hfound, hparts, rfl⟩
        · cases hnone
        · cases hfound
          refine ⟨parts, ?_, rfl⟩
          cases type <;> exact hparts

/-! Objects -/

def propertiesCodec (schema : Document) (parts : List (String × Codec)) : Codec :=
  let shape := Codec.object .partialOf (parts.map fun (key, codec) => .plain key codec)
  if schema.falseAt "additionalProperties" then .exact shape else shape

theorem gives_fromProperties {codecs : List Codec} :
    (fromProperties convert location schema).Gives allowed codecs ↔
      (schema.get? "properties" = none ∧ codecs = []) ∨
      ∃ members parts, schema.get? "type" = some (.string "object") ∧
        schema.get? "properties" = some (.object members) ∧
        (convertMap convert "properties" location members).Gives allowed parts ∧
        codecs = [propertiesCodec schema parts] := by
  unfold fromProperties
  rw [gives_bind_schemaMap]
  simp only [gives_bind, gives_return, eq_comm (b := codecs)]
  constructor
  · intro h
    rcases h with hnone | ⟨members, htype, hmembers, parts, hparts, hcodecs⟩
    · exact .inl hnone
    · exact .inr ⟨members, parts, htype, hmembers, hparts, hcodecs⟩
  · intro h
    rcases h with hnone | ⟨members, parts, htype, hmembers, hparts, hcodecs⟩
    · exact .inl hnone
    · exact .inr ⟨members, htype, hmembers, parts, hparts, hcodecs⟩

theorem gives_fromPropertyNames {codecs : List Codec} :
    (fromPropertyNames convert location schema).Gives allowed codecs ↔
      (schema.get? "propertyNames" = none ∧ codecs = []) ∨
      ∃ names domain, schema.get? "type" = some (.string "object") ∧
        schema.get? "propertyNames" = some names ∧
        (convert (location.down ["propertyNames"]) names).Gives allowed domain ∧
        codecs = [.record domain .unknown] := by
  unfold fromPropertyNames objectKeyword
  rw [gives_bind_valueUnder]
  simp only [gives_bind, gives_return, eq_comm (b := codecs)]
  constructor
  · intro h
    rcases h with hnone | ⟨names, htype, hnames, domain, hdomain, hcodecs⟩
    · exact .inl hnone
    · exact .inr ⟨names, domain, htype, hnames, hdomain, hcodecs⟩
  · intro h
    rcases h with hnone | ⟨names, domain, htype, hnames, hdomain, hcodecs⟩
    · exact .inl hnone
    · exact .inr ⟨names, htype, hnames, domain, hdomain, hcodecs⟩

/-- What patterns contribute is never without a warning. -/
theorem gives_fromPatternProperties {codecs : List Codec} :
    (fromPatternProperties convert location schema).Gives allowed codecs ↔
      (schema.get? "patternProperties" = none ∧ codecs = []) ∨
      ∃ patterns named matched, schema.get? "type" = some (.string "object") ∧
        schema.get? "patternProperties" = some (.object patterns) ∧
        allowed (.reported (.warning "patternProperty support has limitations")) ∧
        (convertMap convert "properties" location
          ((schema.get? "properties").getD .null).members).Gives allowed named ∧
        (convertMap convert "patternProperties" location patterns).Gives allowed matched ∧
        codecs = (unite ((named ++ matched).map Prod.snd)).map (.record .string) := by
  unfold fromPatternProperties
  rw [gives_bind_schemaMap]
  simp only [gives_bind, gives_return, gives_warn, eq_comm (b := codecs)]
  constructor
  · intro h
    rcases h with hnone |
      ⟨patterns, htype, hpatterns, _, hwarning, named, hnamed, matched, hmatched, hcodecs⟩
    · exact .inl hnone
    · exact .inr ⟨patterns, named, matched, htype, hpatterns, hwarning, hnamed, hmatched, hcodecs⟩
  · intro h
    rcases h with hnone |
      ⟨patterns, named, matched, htype, hpatterns, hwarning, hnamed, hmatched, hcodecs⟩
    · exact .inl hnone
    · exact .inr
        ⟨patterns, htype, hpatterns, (), hwarning, named, hnamed, matched, hmatched, hcodecs⟩

theorem gives_fromAdditionalProperties {codecs : List Codec} :
    (fromAdditionalProperties convert location schema).Gives allowed codecs ↔
      (schema.get? "additionalProperties" = none ∧ codecs = []) ∨
      (schema.get? "type" = some (.string "object") ∧
        schema.get? "additionalProperties" = some (.bool false) ∧ codecs = []) ∨
      ∃ value codec, schema.get? "type" = some (.string "object") ∧
        schema.get? "additionalProperties" = some value ∧ value ≠ .bool false ∧
        (convert (location.down ["additionalProperties"]) value).Gives allowed codec ∧
        codecs = [.record .string codec] := by
  unfold fromAdditionalProperties objectKeyword
  rw [gives_bind_valueUnder]
  constructor
  · intro h
    rcases h with ⟨hnone, h⟩ | ⟨found, htype, hfound, h⟩
    · exact .inl ⟨hnone, (gives_return.mp h).symm⟩
    · split at h
      · next hnone => cases hnone
      · next hfalse =>
          cases hfalse
          exact .inr (.inl ⟨htype, hfound, (gives_return.mp h).symm⟩)
      · next value hvalue heq =>
          cases heq
          simp only [gives_bind, gives_return] at h
          obtain ⟨codec, hcodec, rfl⟩ := h
          exact .inr (.inr ⟨found, codec, htype, hfound, hvalue, hcodec, rfl⟩)
  · intro h
    rcases h with ⟨hnone, rfl⟩ | ⟨htype, hfalse, rfl⟩ |
      ⟨value, codec, htype, hfound, hvalue, hcodec, rfl⟩
    · exact .inl ⟨hnone, gives_return.mpr rfl⟩
    · exact .inr ⟨.bool false, htype, hfalse, gives_return.mpr rfl⟩
    · refine .inr ⟨value, htype, hfound, ?_⟩
      split
      · next heq => cases heq
      · next heq =>
          cases heq
          exact absurd rfl hvalue
      · next other _ heq =>
          cases heq
          simp only [gives_bind, gives_return]
          exact ⟨codec, hcodec, rfl⟩

def definedProperty (key : String) : Codec.Property Codec :=
  .plain key (.custom Helper.defined.name Helper.defined.name [])

private theorem gives_requiredProperty {item : Document} {index : Nat}
    {property : Codec.Property Codec} :
    (requiredProperty location (item, index)).Gives allowed property ↔
      ∃ key, item = .string key ∧ property = definedProperty key ∧
        allowed (.required (.helper .defined)) := by
  unfold requiredProperty
  cases item with
  | string key =>
      simp only [gives_bind, gives_return, gives_helperCodec]
      constructor
      · intro h
        obtain ⟨codec, ⟨rfl, hallowed⟩, rfl⟩ := h
        exact ⟨key, rfl, rfl, hallowed⟩
      · intro h
        obtain ⟨found, hfound, rfl, hallowed⟩ := h
        cases hfound
        exact ⟨_, ⟨rfl, hallowed⟩, rfl⟩
  | _ => simp

private theorem gives_each_requiredProperty {items : List Document} {start : Nat}
    {properties : List (Codec.Property Codec)} :
    (each (requiredProperty location) (items.zipIdx start)).Gives allowed properties ↔
      ∃ keys, items = keys.map .string ∧ properties = keys.map definedProperty ∧
        (keys ≠ [] → allowed (.required (.helper .defined))) := by
  rw [gives_each]
  induction items generalizing start properties with
  | nil =>
      rw [List.zipIdx_nil, List.forall₂_nil_left_iff]
      constructor
      · intro h
        subst h
        exact ⟨[], rfl, rfl, fun h => absurd rfl h⟩
      · intro h
        obtain ⟨keys, hkeys, rfl, -⟩ := h
        rw [List.map_eq_nil_iff.mp hkeys.symm]
        rfl
  | cons item rest ih =>
      rw [List.zipIdx_cons]
      constructor
      · intro h
        cases h with
        | cons hfirst hothers =>
            obtain ⟨key, rfl, rfl, hallowed⟩ := gives_requiredProperty.mp hfirst
            obtain ⟨keys, rfl, rfl, -⟩ := ih.mp hothers
            exact ⟨key :: keys, rfl, rfl, fun _ => hallowed⟩
      · intro h
        obtain ⟨keys, hkeys, rfl, hallowed⟩ := h
        cases keys with
        | nil => simp at hkeys
        | cons key keys =>
            simp only [List.map_cons, List.cons.injEq] at hkeys
            obtain ⟨rfl, rfl⟩ := hkeys
            refine .cons (gives_requiredProperty.mpr ⟨key, rfl, rfl, hallowed (by simp)⟩) ?_
            exact ih.mpr ⟨keys, rfl, rfl, fun _ => hallowed (by simp)⟩

theorem gives_fromRequired {codecs : List Codec} :
    (fromRequired location schema).Gives allowed codecs ↔
      (schema.get? "required" = none ∧ codecs = []) ∨
      ∃ keys : List String, schema.get? "required" = some (.array (keys.map .string)) ∧
        (keys ≠ [] → allowed (.required (.helper .defined))) ∧
        codecs = [.object .interface (keys.map definedProperty)] := by
  unfold fromRequired
  cases schema.get? "required" with
  | none => simp [eq_comm]
  | some found =>
      cases found with
      | array items =>
          simp only [gives_bind, gives_return, gives_each_requiredProperty]
          constructor
          · intro h
            obtain ⟨properties, ⟨keys, rfl, rfl, hallowed⟩, rfl⟩ := h
            exact .inr ⟨keys, rfl, hallowed, rfl⟩
          · intro h
            rcases h with ⟨hnone, -⟩ | ⟨keys, hkeys, hallowed, rfl⟩
            · cases hnone
            · cases hkeys
              exact ⟨_, ⟨keys, rfl, rfl, hallowed⟩, rfl⟩
      | _ => simp

theorem gives_fromObject {codecs : List Codec} :
    (fromObject convert location schema).Gives allowed codecs ↔
      ∃ properties names patterns others required,
        (fromProperties convert location schema).Gives allowed properties ∧
        (fromPropertyNames convert location schema).Gives allowed names ∧
        (fromPatternProperties convert location schema).Gives allowed patterns ∧
        (fromAdditionalProperties convert location schema).Gives allowed others ∧
        (fromRequired location schema).Gives allowed required ∧
        codecs = intersect (properties ++ names ++ patterns ++ others) ++ required := by
  unfold fromObject
  simp only [gives_bind, gives_return]
  constructor
  · intro h
    obtain ⟨properties, hproperties, names, hnames, patterns, hpatterns, others, hothers, required,
      hrequired, rfl⟩ := h
    exact ⟨properties, names, patterns, others, required, hproperties, hnames, hpatterns, hothers,
      hrequired, rfl⟩
  · intro h
    obtain ⟨properties, names, patterns, others, required, hproperties, hnames, hpatterns, hothers,
      hrequired, rfl⟩ := h
    exact ⟨properties, hproperties, names, hnames, patterns, hpatterns, others, hothers, required,
      hrequired, rfl⟩

/-! Arrays -/

theorem gives_fromItems {codecs : List Codec} :
    (fromItems convert location schema).Gives allowed codecs ↔
      (schema.get? "items" = none ∧ codecs = []) ∨
      (schema.get? "type" = some (.string "array") ∧
        ((schema.get? "items" = some (.bool true) ∧ codecs = []) ∨
        (schema.get? "items" = some (.bool false) ∧ codecs = [.tuple []]) ∨
        (∃ schemas parts, schema.get? "items" = some (.array schemas) ∧
          schema.get? "additionalItems" = some (.bool false) ∧
          (convertList convert "items" location schemas).Gives allowed parts ∧
          codecs = [.tuple parts]) ∨
        ∃ item codec, schema.get? "items" = some item ∧ (∀ accepts, item ≠ .bool accepts) ∧
          (∀ schemas, item ≠ .array schemas) ∧
          (convert (location.down ["items"]) item).Gives allowed codec ∧
          codecs = [.array codec])) := by
  unfold fromItems
  rw [gives_bind_valueUnder]
  constructor
  · intro h
    rcases h with ⟨hnone, h⟩ | ⟨found, htype, hfound, h⟩
    · exact .inl ⟨hnone, (gives_return.mp h).symm⟩
    · refine .inr ⟨htype, ?_⟩
      cases found with
      | bool accepts =>
          cases accepts with
          | true => exact .inl ⟨hfound, (gives_return.mp h).symm⟩
          | false => exact .inr (.inl ⟨hfound, (gives_return.mp h).symm⟩)
      | array schemas =>
          simp only at h
          split at h
          · next hclosed =>
              simp only [gives_bind, gives_return] at h
              obtain ⟨parts, hparts, rfl⟩ := h
              exact .inr (.inr (.inl ⟨schemas, parts, hfound,
                Document.falseAt_eq_true_iff.mp hclosed, hparts, rfl⟩))
          · simp at h
      | _ =>
          simp only [gives_bind, gives_return] at h
          obtain ⟨codec, hcodec, rfl⟩ := h
          refine .inr (.inr (.inr ⟨_, codec, hfound, ?_, ?_, hcodec, rfl⟩))
          · intro accepts heq
            cases heq
          · intro schemas heq
            cases heq
  · intro h
    rcases h with ⟨hnone, rfl⟩ | ⟨htype, ⟨htrue, rfl⟩ | ⟨hfalse, rfl⟩ |
      ⟨schemas, parts, hschemas, hclosed, hparts, rfl⟩ |
      ⟨item, codec, hitem, hbool, harray, hcodec, rfl⟩⟩
    · exact .inl ⟨hnone, gives_return.mpr rfl⟩
    · exact .inr ⟨_, htype, htrue, gives_return.mpr rfl⟩
    · exact .inr ⟨_, htype, hfalse, gives_return.mpr rfl⟩
    · refine .inr ⟨_, htype, hschemas, ?_⟩
      simp only [Document.falseAt_eq_true_iff.mpr hclosed, if_true, gives_bind, gives_return]
      exact ⟨parts, hparts, rfl⟩
    · refine .inr ⟨item, htype, hitem, ?_⟩
      cases item with
      | bool accepts => exact absurd rfl (hbool accepts)
      | array schemas => exact absurd rfl (harray schemas)
      | _ =>
          simp only [gives_bind, gives_return]
          exact ⟨codec, hcodec, rfl⟩

theorem gives_fromArray {codecs : List Codec} :
    (fromArray convert location schema).Gives allowed codecs ↔
      (fromItems convert location schema).Gives allowed codecs ∧
        (schema.has "contains" = true →
          allowed (.reported (.warning "contains field not supported"))) := by
  unfold fromArray
  simp only [gives_bind]
  constructor
  · intro h
    obtain ⟨items, hitems, h⟩ := h
    split at h
    · simp only [gives_bind, gives_warn, gives_return] at h
      obtain ⟨-, hwarning, rfl⟩ := h
      exact ⟨hitems, fun _ => hwarning⟩
    · next hcontains =>
        cases gives_return.mp h
        exact ⟨hitems, fun h => absurd h hcontains⟩
  · intro h
    obtain ⟨hitems, hwarning⟩ := h
    refine ⟨codecs, hitems, ?_⟩
    split
    · next hcontains =>
        exact gives_bind.mpr ⟨(), gives_warn.mpr (hwarning hcontains), gives_return.mpr rfl⟩
    · exact gives_return.mpr rfl

/-! Values -/

def valueCodec? (scope : Scope) : Document → Option Codec
  | .null => some (nullOf scope)
  | value => (literal? value).map .literal

theorem valueCodec?_of_gives_enumMember {item : Document} {index : Nat} {codec : Codec}
    (h : (enumMember scope location (item, index)).Gives allowed codec) :
    valueCodec? scope item = some codec := by
  unfold enumMember at h
  cases item with
  | null => rw [valueCodec?, (gives_nullCodec.mp h).1]
  | bool value => exact congrArg some (gives_pure.mp h)
  | number text => exact congrArg some (gives_pure.mp h)
  | string text => exact congrArg some (gives_pure.mp h)
  | array items => exact (gives_fail.mp h).elim
  | object members => exact (gives_fail.mp h).elim

theorem gives_enumMember_of_valueCodec? {item : Document} {index : Nat} {codec : Codec}
    (hrequired : ∀ requirement, allowed (.required requirement))
    (h : valueCodec? scope item = some codec) :
    (enumMember scope location (item, index)).Gives allowed codec := by
  unfold enumMember
  cases item with
  | null => exact gives_nullCodec.mpr ⟨(Option.some.inj h).symm, fun _ => hrequired _⟩
  | bool value => exact gives_pure.mpr (Option.some.inj h)
  | number text => exact gives_pure.mpr (Option.some.inj h)
  | string text => exact gives_pure.mpr (Option.some.inj h)
  | array items => simp [valueCodec?, literal?] at h
  | object members => simp [valueCodec?, literal?] at h

theorem gives_fromEnum {codecs : List Codec} :
    (fromEnum scope location schema).Gives allowed codecs ↔
      (schema.get? "enum" = none ∧ codecs = []) ∨
      ∃ values parts, schema.get? "enum" = some (.array values) ∧
        (each (enumMember scope location) values.zipIdx).Gives allowed parts ∧
        codecs = unite parts := by
  unfold fromEnum
  cases schema.get? "enum" with
  | none => simp [eq_comm]
  | some found =>
      cases found with
      | array values => simp [eq_comm]
      | _ => simp

theorem gives_fromConst {codecs : List Codec} :
    (fromConst location schema).Gives allowed codecs ↔
      (schema.get? "const" = none ∧ codecs = []) ∨
      ∃ value literal, schema.get? "const" = some value ∧ literal? value = some literal ∧
        codecs = [.literal literal] := by
  unfold fromConst
  cases hconst : schema.get? "const" with
  | none => simp [eq_comm]
  | some value =>
      cases hliteral : literal? value with
      | none => simp [hliteral]
      | some literal => simp [hliteral, eq_comm]

/-! Combinations -/

theorem gives_fromAll {keyword : String} {codecs : List Codec} :
    (fromAll convert keyword location schema).Gives allowed codecs ↔
      (schema.get? keyword = none ∧ codecs = []) ∨
      ∃ schemas, schema.get? keyword = some (.array schemas) ∧
        (convertList convert keyword location schemas).Gives allowed codecs := by
  unfold fromAll
  cases schema.get? keyword with
  | none => simp [eq_comm]
  | some found =>
      cases found with
      | array schemas => simp
      | _ => simp

/-- What the groups of keywords contribute to a schema. -/
structure Contributions (allowed : Event → Prop) (scope : Scope) (convert : Converter)
    (location : Location) (schema : Document) where
  types : List Codec
  object : List Codec
  array : List Codec
  enum : List Codec
  const : List Codec
  allOf : List Codec
  anyOf : List Codec
  oneOf : List Codec
  gives_types : (fromType scope schema).Gives allowed types
  gives_object : (fromObject convert location schema).Gives allowed object
  gives_array : (fromArray convert location schema).Gives allowed array
  gives_enum : (fromEnum scope location schema).Gives allowed enum
  gives_const : (fromConst location schema).Gives allowed const
  gives_allOf : (fromAll convert "allOf" location schema).Gives allowed allOf
  gives_anyOf : (fromAll convert "anyOf" location schema).Gives allowed anyOf
  gives_oneOf : (fromAll convert "oneOf" location schema).Gives allowed oneOf

def Contributions.all (parts : Contributions allowed scope convert location schema) :
    List Codec :=
  parts.types ++ parts.object ++ parts.array ++ parts.enum ++ parts.const ++
    intersect parts.allOf ++ unite parts.anyOf ++ unite parts.oneOf

theorem gives_contributions {codecs : List Codec} :
    (contributions scope convert location schema).Gives allowed codecs ↔
      ∃ parts : Contributions allowed scope convert location schema, parts.all = codecs := by
  unfold contributions
  simp only [gives_bind, gives_return]
  constructor
  · intro h
    obtain ⟨types, htypes, object, hobject, array, harray, enum, henum, const, hconst, allOf,
      hallOf, anyOf, hanyOf, oneOf, honeOf, rfl⟩ := h
    exact ⟨⟨types, object, array, enum, const, allOf, anyOf, oneOf, htypes, hobject, harray, henum,
      hconst, hallOf, hanyOf, honeOf⟩, rfl⟩
  · intro h
    obtain ⟨parts, rfl⟩ := h
    exact ⟨parts.types, parts.gives_types, parts.object, parts.gives_object, parts.array,
      parts.gives_array, parts.enum, parts.gives_enum, parts.const, parts.gives_const,
      parts.allOf, parts.gives_allOf, parts.anyOf, parts.gives_anyOf, parts.oneOf,
      parts.gives_oneOf, rfl⟩

theorem gives_compose {codecs : List Codec} {codec : Codec} :
    (compose location schema codecs).Gives allowed codec ↔
      (codecs = [] ∧ (Constraint.isConstrained schema || isAnnotation schema) = true ∧
        codec = .unknown) ∨
      codecs = [codec] ∨
      2 ≤ codecs.length ∧ codec = .intersection codecs := by
  match codecs with
  | [] =>
      rw [compose]
      by_cases hmeaning : (Constraint.isConstrained schema || isAnnotation schema) = true
      · rw [if_pos hmeaning, gives_pure]
        simp [hmeaning, eq_comm]
      · rw [if_neg hmeaning, gives_fail]
        simp [hmeaning]
  | [single] => simp [compose]
  | first :: second :: rest =>
      change (Conversion.pure (Codec.intersection (first :: second :: rest))).Gives allowed codec ↔ _
      rw [gives_pure]
      constructor
      · intro h
        subst h
        exact .inr (.inr ⟨by simp, rfl⟩)
      · intro h
        rcases h with ⟨hnone, -⟩ | hsingle | ⟨-, hcodec⟩
        · cases hnone
        · simp at hsingle
        · exact hcodec.symm

/-! Nothing contributed -/

theorem unite_eq_nil {codecs : List Codec} (h : unite codecs = []) : codecs = [] := by
  unfold unite at h
  split at h
  · rfl
  · cases h
  · cases h

theorem intersect_eq_nil {codecs : List Codec} (h : intersect codecs = []) : codecs = [] := by
  unfold intersect at h
  split at h
  · rfl
  · cases h
  · cases h

theorem unite_eq_nil_iff {codecs : List Codec} : unite codecs = [] ↔ codecs = [] := by
  constructor
  · exact unite_eq_nil
  · rintro rfl
    rfl

theorem intersect_eq_nil_iff {codecs : List Codec} : intersect codecs = [] ↔ codecs = [] := by
  constructor
  · exact intersect_eq_nil
  · rintro rfl
    rfl

section

variable {codecs : List Codec}

theorem fromProperties_eq_nil_iff
    (h : (fromProperties convert location schema).Gives allowed codecs) :
    codecs = [] ↔ schema.get? "properties" = none := by
  rcases gives_fromProperties.mp h with ⟨hnone, rfl⟩ | ⟨members, parts, -, hmembers, -, rfl⟩
  · simp [hnone]
  · simp [hmembers]

theorem fromPropertyNames_eq_nil_iff
    (h : (fromPropertyNames convert location schema).Gives allowed codecs) :
    codecs = [] ↔ schema.get? "propertyNames" = none := by
  rcases gives_fromPropertyNames.mp h with ⟨hnone, rfl⟩ | ⟨names, domain, -, hnames, -, rfl⟩
  · simp [hnone]
  · simp [hnames]

/-- An empty map of patterns contributes nothing, unless there are properties. -/
theorem fromPatternProperties_eq_nil_iff
    (h : (fromPatternProperties convert location schema).Gives allowed codecs) :
    codecs = [] ↔ schema.get? "patternProperties" = none ∨
      schema.get? "patternProperties" = some (.object []) ∧
        ((schema.get? "properties").getD .null).members = [] := by
  rcases gives_fromPatternProperties.mp h with
    ⟨hnone, rfl⟩ | ⟨patterns, named, matched, -, hpatterns, -, hnamed, hmatched, rfl⟩
  · simp [hnone]
  · have hnamed := (gives_convertMap.mp hnamed).length_eq
    have hmatched := (gives_convertMap.mp hmatched).length_eq
    rw [List.map_eq_nil_iff, unite_eq_nil_iff, List.map_eq_nil_iff, List.append_eq_nil_iff,
      ← List.length_eq_zero_iff, ← hnamed, ← List.length_eq_zero_iff, ← hmatched, hpatterns]
    simp [and_comm]

theorem fromAdditionalProperties_eq_nil_iff
    (h : (fromAdditionalProperties convert location schema).Gives allowed codecs) :
    codecs = [] ↔ schema.get? "additionalProperties" = none ∨
      schema.get? "additionalProperties" = some (.bool false) := by
  rcases gives_fromAdditionalProperties.mp h with
    ⟨hnone, rfl⟩ | ⟨-, hfalse, rfl⟩ | ⟨value, codec, -, hvalue, hne, -, rfl⟩
  · simp [hnone]
  · simp [hfalse]
  · simp [hvalue, hne]

theorem fromRequired_eq_nil_iff (h : (fromRequired location schema).Gives allowed codecs) :
    codecs = [] ↔ schema.get? "required" = none := by
  rcases gives_fromRequired.mp h with ⟨hnone, rfl⟩ | ⟨keys, hkeys, -, rfl⟩
  · simp [hnone]
  · simp [hkeys]

theorem fromItems_eq_nil_iff (h : (fromItems convert location schema).Gives allowed codecs) :
    codecs = [] ↔ schema.get? "items" = none ∨ schema.get? "items" = some (.bool true) := by
  rcases gives_fromItems.mp h with ⟨hnone, rfl⟩ | ⟨-, ⟨htrue, rfl⟩ | ⟨hfalse, rfl⟩ |
    ⟨schemas, parts, hschemas, -, -, rfl⟩ | ⟨item, codec, hitem, hbool, -, -, rfl⟩⟩
  · simp [hnone]
  · simp [htrue]
  · simp [hfalse]
  · simp [hschemas]
  · simp [hitem, hbool]

theorem fromEnum_eq_nil_iff (h : (fromEnum scope location schema).Gives allowed codecs) :
    codecs = [] ↔ schema.get? "enum" = none ∨ schema.get? "enum" = some (.array []) := by
  rcases gives_fromEnum.mp h with ⟨hnone, rfl⟩ | ⟨values, parts, hvalues, hparts, rfl⟩
  · simp [hnone]
  · have hlength := (gives_each.mp hparts).length_eq
    rw [List.length_zipIdx] at hlength
    rw [unite_eq_nil_iff, ← List.length_eq_zero_iff, ← hlength, hvalues]
    simp

theorem fromConst_eq_nil_iff (h : (fromConst location schema).Gives allowed codecs) :
    codecs = [] ↔ schema.get? "const" = none := by
  rcases gives_fromConst.mp h with ⟨hnone, rfl⟩ | ⟨value, literal, hvalue, -, rfl⟩
  · simp [hnone]
  · simp [hvalue]

theorem fromAll_eq_nil_iff {keyword : String}
    (h : (fromAll convert keyword location schema).Gives allowed codecs) :
    codecs = [] ↔ schema.get? keyword = none ∨ schema.get? keyword = some (.array []) := by
  rcases gives_fromAll.mp h with ⟨hnone, rfl⟩ | ⟨schemas, hschemas, hgives⟩
  · simp [hnone]
  · have hlength := (gives_of_convertList hgives).length_eq
    rw [← List.length_eq_zero_iff, ← hlength, hschemas]
    simp

end

theorem items_of_fromArray_nil (h : (fromArray convert location schema).Gives allowed []) :
    schema.get? "items" = none ∨ schema.get? "items" = some (.bool true) :=
  (fromItems_eq_nil_iff (gives_fromArray.mp h).1).mp rfl

end SchemaCodec.Conversion
