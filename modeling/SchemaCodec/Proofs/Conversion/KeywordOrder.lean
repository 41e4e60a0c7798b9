import SchemaCodec.Conversion.Definition
import SchemaCodec.Proofs.Conversion.Likeness
import SchemaCodec.Proofs.Conversion.Unfolding
import SchemaCodec.Proofs.Document.Reordering

namespace SchemaCodec

/-! The order of keywords does not show in what a schema is converted to. -/

open Document (Content ReorderedAs)

namespace Constraint

variable {schema other : Document}

private theorem conditions_eq (h : schema.Reordered other) :
    conditions schema = conditions other := by
  have hregexp : regexpOf? schema = regexpOf? other := by
    rw [regexpOf?, regexpOf?, h.get?_eq "regexp" rfl]
  unfold conditions numberAt? Document.trueAt
  rw [hregexp, h.stringAt?_eq "pattern" rfl, h.stringAt?_eq "format" rfl,
    h.stringAt?_eq "type" rfl, h.get?_eq "minLength" rfl, h.get?_eq "maxLength" rfl,
    h.get?_eq "minimum" rfl, h.get?_eq "maximum" rfl, h.get?_eq "multipleOf" rfl,
    h.get?_eq "minItems" rfl, h.get?_eq "maxItems" rfl, h.get?_eq "uniqueItems" rfl]

private theorem synthesize_eq (h : schema.Reordered other) :
    synthesize schema = synthesize other := by
  rw [synthesize, synthesize, conditions_eq h]

private theorem warnings_eq (h : schema.Reordered other) : warnings schema = warnings other := by
  rw [warnings, warnings, h.stringAt?_eq "format" rfl]

private theorem isConstrained_eq (h : schema.Reordered other) :
    isConstrained schema = isConstrained other := by
  rw [isConstrained, isConstrained, conditions_eq h]

end Constraint

private theorem Metadata.ofSchema_eq {schema other : Document} (h : schema.Reordered other)
    (location : Location) : ofSchema location schema = ofSchema location other := by
  have hkind : schema.isObject = other.isObject := by
    rcases h.eq_or_objects with rfl | ⟨members, others, rfl, rfl⟩
    · rfl
    · rfl
  simp only [ofSchema, textAt?, examplesOf, invalidOf, hkind, h.has_eq "$ref",
    h.get?_eq "title" rfl, h.get?_eq "description" rfl, h.get?_eq "examples" rfl,
    h.get?_eq "invalid" rfl, h.get?_eq "default" rfl, h.get?_eq "minimum" rfl,
    h.get?_eq "maximum" rfl]

namespace Conversion

/-- Converts schemas alike that differ in the order of keywords alone. -/
def Indifferent (convert : Converter) : Prop :=
  ∀ place part other, part.Reordered other → Alike Eq (convert place part) (convert place other)

section

variable {scope : Scope} {convert : Converter} {location : Location} {schema other : Document}

/-! Keywords that stand for themselves. -/

private theorem alike_reportKeywords (h : schema.Reordered other) (isTop : Bool) :
    Alike Eq (reportKeywords isTop schema) (reportKeywords isTop other) := by
  have hwarnings : (unsupportedKeywords isTop schema).Perm (unsupportedKeywords isTop other) :=
    (h.keys_perm.filter _).map _
  unfold reportKeywords
  rw [h.stringAt?_eq "type" rfl]
  split
  · split
    · exact alike_bind_same (.refl _) fun _ => alike_warnAll hwarnings
    · exact alike_warnAll hwarnings
  · exact alike_warnAll hwarnings

private theorem referenceAt_eq (h : schema.Reordered other) :
    referenceAt location schema = referenceAt location other := by
  rw [referenceAt, referenceAt, h.get?_eq "$ref" rfl]

private theorem fromReference_eq (h : schema.Reordered other) (text : String) :
    fromReference scope location schema text = fromReference scope location other text := by
  have hcompany : hasCompany schema = hasCompany other := h.keys_perm.any_eq
  rw [fromReference, fromReference, hcompany]

private theorem fromType_eq (h : schema.Reordered other) :
    fromType scope schema = fromType scope other := by
  have hobject : hasObjectShape schema = hasObjectShape other := by
    simp only [hasObjectShape, h.has_eq]
    rw [h.any_eq "additionalProperties" fun hrelated => congrArg (!·) hrelated.isFalse_eq]
  have harray : hasArrayShape schema = hasArrayShape other :=
    h.any_eq "items" fun hrelated => congrArg (!·) hrelated.isTrue_eq
  have hname : fromTypeName scope schema = fromTypeName scope other := by
    funext type name
    simp only [fromTypeName, hobject, harray]
  rw [fromType, fromType, h.get?_eq "type" rfl, hname]

private theorem fromRequired_eq (h : schema.Reordered other) :
    fromRequired location schema = fromRequired location other := by
  rw [fromRequired, fromRequired, h.get?_eq "required" rfl]

private theorem fromEnum_eq (h : schema.Reordered other) :
    fromEnum scope location schema = fromEnum scope location other := by
  rw [fromEnum, fromEnum, h.get?_eq "enum" rfl]

private theorem fromConst_eq (h : schema.Reordered other) :
    fromConst location schema = fromConst location other := by
  rw [fromConst, fromConst, h.get?_eq "const" rfl]

/-! Keywords with schemas inside. -/

private theorem alike_valueUnder {type keyword : String} {problem : Fault.Problem}
    (h : schema.Reordered other) :
    Alike (Option.Rel (ReorderedAs (Content.ofKeyword keyword)))
      (valueUnder type keyword problem location schema)
      (valueUnder type keyword problem location other) := by
  unfold valueUnder
  rw [h.stringAt?_eq "type" rfl]
  rcases h.get?_cases keyword with ⟨hnone, hmissing⟩ | ⟨value, found, hvalue, hfound, hrelated⟩
  · rw [hnone, hmissing]
    exact alike_return .none
  · rw [hvalue, hfound]
    simp only
    split
    · exact alike_return (.some hrelated)
    · exact alike_fail rfl

def MapReordered : List (String × Document) → List (String × Document) → Prop :=
  List.Forall₂ fun member entry => member.1 = entry.1 ∧ member.2.Reordered entry.2

private theorem mapReordered_members {map others : Document}
    (h : ReorderedAs (.members fun _ => .schema) map others) :
    MapReordered map.members others.members := by
  rcases h.forall₂_of_members with rfl | ⟨members, entries, rfl, rfl, hmembers⟩
  · exact List.forall₂_same.mpr fun _ _ => ⟨rfl, .same⟩
  · exact hmembers

private theorem alike_schemaMap {keyword : String}
    (hkeyword : Content.ofKeyword keyword = .members fun _ => .schema)
    (h : schema.Reordered other) :
    Alike (Option.Rel MapReordered) (schemaMap keyword location schema)
      (schemaMap keyword location other) := by
  apply alike_bind (alike_valueUnder h)
  intro value found hvalue
  cases hvalue with
  | none => exact alike_return .none
  | @some map others hmap =>
      rw [hkeyword] at hmap
      rcases hmap.forall₂_of_members with rfl | ⟨members, entries, rfl, rfl, hmembers⟩
      · cases map with
        | object members => exact alike_return (.some (mapReordered_members hmap))
        | _ => exact alike_fail rfl
      · exact alike_return (.some hmembers)

private theorem alike_convertMap (hconvert : Indifferent convert) {keyword : String}
    {members others : List (String × Document)} (h : MapReordered members others) :
    Alike Eq (convertMap convert keyword location members)
      (convertMap convert keyword location others) := by
  apply alike_each_same
  refine h.imp ?_
  rintro ⟨name, part⟩ ⟨_, found⟩ ⟨rfl, hpart⟩
  exact alike_bind_same (hconvert _ part found hpart) fun codec => .refl _

private theorem alike_fromProperties (hconvert : Indifferent convert) (h : schema.Reordered other) :
    Alike Eq (fromProperties convert location schema) (fromProperties convert location other) := by
  have hclosed : schema.falseAt "additionalProperties" = other.falseAt "additionalProperties" :=
    h.any_eq "additionalProperties" fun hrelated => hrelated.isFalse_eq
  apply alike_bind (alike_schemaMap rfl h)
  intro value found hvalue
  cases hvalue with
  | none => exact .refl _
  | some hmembers =>
      apply alike_bind_same (alike_convertMap hconvert hmembers)
      intro codecs
      rw [hclosed]
      exact .refl _

private theorem alike_fromPropertyNames (hconvert : Indifferent convert)
    (h : schema.Reordered other) :
    Alike Eq (fromPropertyNames convert location schema)
      (fromPropertyNames convert location other) := by
  apply alike_bind (alike_valueUnder h)
  intro value found hvalue
  cases hvalue with
  | none => exact .refl _
  | some hnames => exact alike_bind_same (hconvert _ _ _ hnames) fun domain => .refl _

private theorem alike_fromPatternProperties (hconvert : Indifferent convert)
    (h : schema.Reordered other) :
    Alike Eq (fromPatternProperties convert location schema)
      (fromPatternProperties convert location other) := by
  -- The properties are read here without a look at the type beside them.
  have hproperties : MapReordered ((schema.get? "properties").getD .null).members
      ((other.get? "properties").getD .null).members := by
    rcases h.get?_cases "properties" with ⟨hnone, hmissing⟩ | ⟨map, found, hmap, hfound, hrelated⟩
    · rw [hnone, hmissing]
      exact .nil
    · rw [hmap, hfound]
      exact mapReordered_members hrelated
  apply alike_bind (alike_schemaMap rfl h)
  intro value found hvalue
  cases hvalue with
  | none => exact .refl _
  | some hpatterns =>
      apply alike_bind_same (.refl _)
      intro _
      apply alike_bind_same (alike_convertMap hconvert hproperties)
      intro named
      apply alike_bind_same (alike_convertMap hconvert hpatterns)
      intro matched
      exact .refl _

private theorem alike_fromAdditionalProperties (hconvert : Indifferent convert)
    (h : schema.Reordered other) :
    Alike Eq (fromAdditionalProperties convert location schema)
      (fromAdditionalProperties convert location other) := by
  apply alike_bind (alike_valueUnder h)
  intro value found hvalue
  cases hvalue with
  | none => exact .refl _
  | @some value found hrelated =>
      have hcodec : Alike Eq (convert (location.down ["additionalProperties"]) value)
        (convert (location.down ["additionalProperties"]) found) := hconvert _ _ _ hrelated
      rcases Document.Reordered.eq_or_objects hrelated with rfl | ⟨members, others, rfl, rfl⟩
      · exact .refl _
      · exact alike_bind_same hcodec fun codec => .refl _

private theorem alike_fromObject (hconvert : Indifferent convert) (h : schema.Reordered other) :
    Alike Eq (fromObject convert location schema) (fromObject convert location other) := by
  unfold fromObject
  apply alike_bind_same (alike_fromProperties hconvert h)
  intro properties
  apply alike_bind_same (alike_fromPropertyNames hconvert h)
  intro names
  apply alike_bind_same (alike_fromPatternProperties hconvert h)
  intro patterns
  apply alike_bind_same (alike_fromAdditionalProperties hconvert h)
  intro others
  rw [fromRequired_eq h]
  exact .refl _

private theorem alike_convertList (hconvert : Indifferent convert) {keyword : String}
    {schemas others : List Document} (h : List.Forall₂ Document.Reordered schemas others) :
    Alike Eq (convertList convert keyword location schemas)
      (convertList convert keyword location others) := by
  apply alike_each_same
  rw [List.forall₂_iff_get] at h ⊢
  obtain ⟨hlength, hparts⟩ := h
  refine ⟨by simpa using hlength, ?_⟩
  intro index hindex hother
  simp only [List.length_zipIdx] at hindex hother
  simpa using hconvert _ _ _ (hparts index hindex hother)

private theorem alike_fromItems (hconvert : Indifferent convert) (h : schema.Reordered other) :
    Alike Eq (fromItems convert location schema) (fromItems convert location other) := by
  have hclosed : schema.falseAt "additionalItems" = other.falseAt "additionalItems" :=
    h.any_eq "additionalItems" fun hrelated => hrelated.isFalse_eq
  unfold fromItems
  rw [hclosed]
  apply alike_bind (alike_valueUnder h)
  intro value found hvalue
  cases hvalue with
  | none => exact .refl _
  | some hitems =>
      cases hitems with
      | same => exact .refl _
      | one hitem =>
          rcases Document.Reordered.eq_or_objects hitem with rfl | ⟨members, others, rfl, rfl⟩
          · exact .refl _
          · exact alike_bind_same (hconvert _ _ _ hitem) fun codec => .refl _
      | many hitems =>
          rcases hitems.forall₂_of_list with rfl | ⟨schemas, others, rfl, rfl, hschemas⟩
          · exact .refl _
          · simp only
            split
            · exact alike_bind_same (alike_convertList hconvert hschemas) fun codecs => .refl _
            · exact .refl _

private theorem alike_fromArray (hconvert : Indifferent convert) (h : schema.Reordered other) :
    Alike Eq (fromArray convert location schema) (fromArray convert location other) := by
  unfold fromArray
  rw [h.has_eq "contains"]
  exact alike_bind_same (alike_fromItems hconvert h) fun codecs => .refl _

private theorem alike_fromAll (hconvert : Indifferent convert) {keyword : String}
    (hkeyword : Content.ofKeyword keyword = .list .schema) (h : schema.Reordered other) :
    Alike Eq (fromAll convert keyword location schema)
      (fromAll convert keyword location other) := by
  unfold fromAll
  rcases h.get?_cases keyword with ⟨hnone, hmissing⟩ | ⟨value, found, hvalue, hfound, hrelated⟩
  · rw [hnone, hmissing]
    exact .refl _
  · rw [hvalue, hfound]
    rw [hkeyword] at hrelated
    rcases hrelated.forall₂_of_list with rfl | ⟨schemas, others, rfl, rfl, hschemas⟩
    · exact .refl _
    · exact alike_convertList hconvert hschemas

private theorem alike_contributions (hconvert : Indifferent convert) (h : schema.Reordered other) :
    Alike Eq (contributions scope convert location schema)
      (contributions scope convert location other) := by
  unfold contributions
  rw [fromType_eq h, fromEnum_eq h, fromConst_eq h]
  apply alike_bind_same (.refl _)
  intro types
  apply alike_bind_same (alike_fromObject hconvert h)
  intro object
  apply alike_bind_same (alike_fromArray hconvert h)
  intro array
  apply alike_bind_same (.refl _)
  intro enum
  apply alike_bind_same (.refl _)
  intro const
  apply alike_bind_same (alike_fromAll hconvert rfl h)
  intro allOf
  apply alike_bind_same (alike_fromAll hconvert rfl h)
  intro anyOf
  apply alike_bind_same (alike_fromAll hconvert rfl h)
  intro oneOf
  exact .refl _

private theorem alike_compose (h : schema.Reordered other) (codecs : List Codec) :
    Alike Eq (compose location schema codecs) (compose location other codecs) := by
  have hannotation : isAnnotation schema = isAnnotation other := h.keys_perm.all_eq
  cases codecs with
  | nil =>
      simp only [compose, Constraint.isConstrained_eq h, hannotation]
      split
      · exact .refl _
      · exact alike_fail rfl
  | cons first rest =>
      cases rest with
      | nil => exact .refl _
      | cons second rest => exact .refl _

private theorem alike_compileBy (hconvert : Indifferent convert) (isTop : Bool)
    (h : schema.Reordered other) :
    Alike Eq (compileBy convert scope isTop location schema)
      (compileBy convert scope isTop location other) := by
  rcases h.eq_or_objects with rfl | ⟨members, others, rfl, rfl⟩
  · exact .refl _
  · apply alike_bind_same (alike_reportKeywords h isTop)
    intro _
    rw [referenceAt_eq h]
    apply alike_bind_same (.refl _)
    intro reference
    cases reference with
    | some text =>
        simp only
        rw [fromReference_eq h]
        exact .refl _
    | none =>
        apply alike_bind_same (.refl _)
        intro _
        exact alike_bind_same (alike_contributions hconvert h) (alike_compose h)

end

private theorem indifferent_compileWithin (scope : Scope) (depth : Nat) (isTop : Bool) :
    Indifferent (compileWithin scope depth isTop) := by
  induction depth generalizing isTop with
  -- The faults hold different schemas, but break the same rule.
  | zero => exact fun place part other _ => alike_fail rfl
  | succ depth ih => exact fun place part other h => alike_compileBy (ih false) isTop h

private theorem indifferent_compile (scope : Scope) (isTop : Bool) :
    Indifferent (compile scope isTop) := by
  intro place part other h
  -- One bound that is above the depths of both schemas.
  let bound := max part.depth other.depth + 1
  have hpart : compile scope isTop place part = compileWithin scope bound isTop place part :=
    compileWithin_eq (by omega) (by omega)
  have hother : compile scope isTop place other = compileWithin scope bound isTop place other :=
    compileWithin_eq (by omega) (by omega)
  rw [hpart, hother]
  exact indifferent_compileWithin scope bound isTop place part other h

section

variable {scope : Scope} {location : Location} {name : String} {schema other : Document}

private theorem brand_eq (h : schema.Reordered other) (codec : Codec) :
    brand name codec schema = brand name codec other := by
  simp only [brand, condition, Constraint.synthesize_eq h, Constraint.warnings_eq h]

private theorem alike_definitionCodec (h : schema.Reordered other) :
    Alike Eq (definitionCodec scope location name schema)
      (definitionCodec scope location name other) := by
  rcases h.eq_or_objects with rfl | ⟨members, others, rfl, rfl⟩
  · exact .refl _
  · unfold definitionCodec
    simp only
    rw [referenceAt_eq h]
    apply alike_bind_same (.refl _)
    intro reference
    cases reference with
    | some text =>
        simp only
        rw [fromReference_eq h]
        exact .refl _
    | none =>
        apply alike_bind_same (indifferent_compile scope true location _ _ h)
        intro inner
        rw [brand_eq h]
        exact .refl _

private theorem alike_define (h : schema.Reordered other) :
    Alike Eq (define scope location name schema) (define scope location name other) := by
  unfold define
  rw [Metadata.ofSchema_eq h]
  apply alike_bind_same (.refl _)
  intro metadata
  exact alike_bind_same (alike_definitionCodec h) fun codec => .refl _

end

/-- Schemas that differ in the order of keywords alone have the same definition or fail alike, need
the same and are reported about in the same words. -/
theorem define_keyword_order (scope : Scope) (location : Location) (name : String)
    (context : Context) {schema other : Document} (h : schema.Reordered other) :
    let first := define scope location name schema
    let second := define scope location name other
    ((∃ definition, first.result = .ok definition ∧ second.result = .ok definition) ∨
      ∃ fault found, first.result = .error fault ∧ second.result = .error found ∧
        fault.Alike found) ∧
    (context.absorb first.events).imports = (context.absorb second.events).imports ∧
    (context.absorb first.events).helpers = (context.absorb second.events).helpers ∧
    first.reports.Perm second.reports := by
  intro first second
  have halike : Alike Eq first second := alike_define h
  refine ⟨?_, halike.imports context, halike.helpers context, halike.reports⟩
  have hresult := halike.result
  generalize first.result = outcome at hresult
  generalize second.result = found at hresult
  cases hresult with
  | ok hvalue => exact .inl ⟨_, rfl, congrArg _ hvalue.symm⟩
  | error hfault => exact .inr ⟨_, _, rfl, rfl, hfault⟩

def crateSchema : Document :=
  .object [("type", .string "object"), ("weight", .null), ("colour", .null),
    ("properties", .object [("lid", .object [("type", .string "boolean"), ("hinge", .null)])])]

def turnedCrateSchema : Document :=
  .object [
    ("properties", .object [("lid", .object [("hinge", .null), ("type", .string "boolean")])]),
    ("colour", .null), ("weight", .null), ("type", .string "object")]

private theorem crateSchema_reordered : crateSchema.Reordered turnedCrateSchema := by
  have hlid : ReorderedAs (.members fun _ => .schema)
      (.object [("lid", .object [("type", .string "boolean"), ("hinge", .null)])])
      (.object [("lid", .object [("hinge", .null), ("type", .string "boolean")])]) := by
    refine .members rfl fun member entry hmem => ?_
    cases List.mem_singleton.mp hmem
    exact Document.reordered_of_perm (.swap ..) (by decide)
  refine .schema (by decide) fun keyword value other hvalue hother => ?_
  simp only [List.mem_cons, List.not_mem_nil, or_false, Prod.mk.injEq] at hvalue hother
  rcases hvalue with ⟨rfl, rfl⟩ | ⟨rfl, rfl⟩ | ⟨rfl, rfl⟩ | ⟨rfl, rfl⟩
  · obtain rfl : other = .string "object" := by simpa using hother
    exact .same
  · obtain rfl : other = .null := by simpa using hother
    exact .same
  · obtain rfl : other = .null := by simpa using hother
    exact .same
  · simp only [String.reduceEq, false_and, or_false, true_and] at hother
    rw [hother]
    exact hlid

def crateScope : Scope :=
  ⟨false, ⟨"", "", [], 0, ""⟩⟩

theorem define_keyword_order_crate :
    crateSchema.Reordered turnedCrateSchema ∧
    let first := define crateScope .root "Crate" crateSchema
    let second := define crateScope .root "Crate" turnedCrateSchema
    (∃ definition, first.result = .ok definition ∧ second.result = .ok definition) ∧
    first.reports ≠ second.reports ∧ first.reports.Perm second.reports := by
  obtain ⟨houtcome, -, -, hreports⟩ := define_keyword_order crateScope .root "Crate"
    (.fresh "crate.json") crateSchema_reordered
  refine ⟨crateSchema_reordered, ?_, by decide, hreports⟩
  rcases houtcome with hsame | ⟨fault, found, hfault, -, -⟩
  · exact hsame
  · cases hfault

end Conversion

end SchemaCodec
