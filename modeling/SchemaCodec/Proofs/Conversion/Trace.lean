import SchemaCodec.Proofs.Conversion.Record
import SchemaCodec.Proofs.Conversion.Unfolding

namespace SchemaCodec.Conversion

/-! What the keywords of a schema put on record when they succeed, one after another. -/

variable {scope : Scope} {convert : Converter} {location : Location} {schema : Document}
  {events : List Event} {codecs : List Codec}

/-! Keywords that are only looked up -/

private theorem events_valueUnder {type keyword : String} {problem : Fault.Problem}
    {value : Option Document}
    (h : (valueUnder type keyword problem location schema).Leaves events value) : events = [] := by
  unfold valueUnder at h
  split at h
  · exact (leaves_pure.1 h).1
  · split at h
    · exact (leaves_pure.1 h).1
    · exact (leaves_fail.1 h).elim

private theorem events_schemaMap {keyword : String} {members : Option (List (String × Document))}
    (h : (schemaMap keyword location schema).Leaves events members) : events = [] := by
  simp only [schemaMap, leaves_bind] at h
  obtain ⟨before, value, after, hvalue, hmembers, rfl⟩ := h
  rw [events_valueUnder hvalue, List.nil_append]
  split at hmembers
  · exact (leaves_return.1 hmembers).1
  · exact (leaves_return.1 hmembers).1
  · exact (leaves_fail.1 hmembers).elim

theorem events_referenceAt {text : Option String}
    (h : (referenceAt location schema).Leaves events text) : events = [] := by
  unfold referenceAt at h
  split at h
  · exact (leaves_pure.1 h).1
  · exact (leaves_pure.1 h).1
  · exact (leaves_fail.1 h).elim

private theorem trace_valueUnder {type keyword : String} {problem : Fault.Problem}
    {next : Option Document → Conversion α} {value : α}
    (h : (valueUnder type keyword problem location schema >>= next).Leaves events value) :
    (schema.get? keyword = none ∧ (next none).Leaves events value) ∨
      ∃ found, schema.get? keyword = some found ∧ (next (some found)).Leaves events value := by
  obtain ⟨before, found, after, hfound, hnext, rfl⟩ := leaves_bind.1 h
  have hkeyword := (gives_valueUnder.mp (gives_anything_iff.mpr hfound.result)).1
  rw [events_valueUnder hfound, List.nil_append]
  cases found with
  | none => exact .inl ⟨hkeyword, hnext⟩
  | some found => exact .inr ⟨found, hkeyword, hnext⟩

private theorem trace_schemaMap {keyword : String}
    {next : Option (List (String × Document)) → Conversion α} {value : α}
    (h : (schemaMap keyword location schema >>= next).Leaves events value) :
    (schema.get? keyword = none ∧ (next none).Leaves events value) ∨
      ∃ members, schema.get? keyword = some (.object members) ∧
        (next (some members)).Leaves events value := by
  obtain ⟨before, found, after, hfound, hnext, rfl⟩ := leaves_bind.1 h
  have hkeyword := (gives_schemaMap.mp (gives_anything_iff.mpr hfound.result)).1
  rw [events_schemaMap hfound, List.nil_append]
  cases found with
  | none => exact .inl ⟨hkeyword, hnext⟩
  | some members => exact .inr ⟨members, hkeyword, hnext⟩

/-! Objects -/

theorem trace_fromProperties (h : (fromProperties convert location schema).Leaves events codecs) :
    (schema.get? "properties" = none ∧ events = [] ∧ codecs = []) ∨
      ∃ members parts, schema.get? "properties" = some (.object members) ∧
        (convertMap convert "properties" location members).Leaves events parts ∧
        codecs = [propertiesCodec schema parts] := by
  rcases trace_schemaMap h with ⟨hnone, h⟩ | ⟨members, hmembers, h⟩
  · obtain ⟨hevents, hcodecs⟩ := leaves_return.1 h
    exact .inl ⟨hnone, hevents, hcodecs.symm⟩
  · simp only [leaves_bind, leaves_return] at h
    obtain ⟨middle, parts, last, hparts, ⟨rfl, rfl⟩, rfl⟩ := h
    rw [List.append_nil]
    exact .inr ⟨members, parts, hmembers, hparts, rfl⟩

theorem trace_fromPropertyNames
    (h : (fromPropertyNames convert location schema).Leaves events codecs) :
    (schema.get? "propertyNames" = none ∧ events = [] ∧ codecs = []) ∨
      ∃ names domain, schema.get? "propertyNames" = some names ∧
        (convert (location.down ["propertyNames"]) names).Leaves events domain ∧
        codecs = [.record domain .unknown] := by
  rcases trace_valueUnder h with ⟨hnone, h⟩ | ⟨names, hnames, h⟩
  · obtain ⟨hevents, hcodecs⟩ := leaves_return.1 h
    exact .inl ⟨hnone, hevents, hcodecs.symm⟩
  · simp only [leaves_bind, leaves_return] at h
    obtain ⟨middle, domain, last, hdomain, ⟨rfl, rfl⟩, rfl⟩ := h
    rw [List.append_nil]
    exact .inr ⟨names, domain, hnames, hdomain, rfl⟩

/-- The properties are converted once more for the patterns. -/
theorem trace_fromPatternProperties
    (h : (fromPatternProperties convert location schema).Leaves events codecs) :
    (schema.get? "patternProperties" = none ∧ events = [] ∧ codecs = []) ∨
      ∃ patterns named matched first second,
        schema.get? "patternProperties" = some (.object patterns) ∧
        (convertMap convert "properties" location
          ((schema.get? "properties").getD .null).members).Leaves first named ∧
        (convertMap convert "patternProperties" location patterns).Leaves second matched ∧
        events = .reported (.warning "patternProperty support has limitations") ::
          (first ++ second) ∧
        codecs = (unite ((named ++ matched).map Prod.snd)).map (.record .string) := by
  rcases trace_schemaMap h with ⟨hnone, h⟩ | ⟨patterns, hpatterns, h⟩
  · obtain ⟨hevents, hcodecs⟩ := leaves_return.1 h
    exact .inl ⟨hnone, hevents, hcodecs.symm⟩
  · simp only [leaves_bind, leaves_warn, leaves_return] at h
    obtain ⟨warned, -, middle, rfl, ⟨first, named, last, hnamed, ⟨second, matched, final, hmatched,
      ⟨rfl, rfl⟩, rfl⟩, rfl⟩, rfl⟩ := h
    rw [List.append_nil]
    exact .inr ⟨patterns, named, matched, first, second, hpatterns, hnamed, hmatched, rfl, rfl⟩

theorem trace_fromAdditionalProperties
    (h : (fromAdditionalProperties convert location schema).Leaves events codecs) :
    ((schema.get? "additionalProperties" = none ∨
        schema.get? "additionalProperties" = some (.bool false)) ∧ events = [] ∧ codecs = []) ∨
      ∃ value codec, schema.get? "additionalProperties" = some value ∧
        (convert (location.down ["additionalProperties"]) value).Leaves events codec ∧
        codecs = [.record .string codec] := by
  rcases trace_valueUnder h with ⟨hnone, h⟩ | ⟨value, hvalue, h⟩
  · obtain ⟨hevents, hcodecs⟩ := leaves_return.1 h
    exact .inl ⟨.inl hnone, hevents, hcodecs.symm⟩
  · split at h
    · next heq => cases heq
    · next heq =>
        cases heq
        obtain ⟨hevents, hcodecs⟩ := leaves_return.1 h
        exact .inl ⟨.inr hvalue, hevents, hcodecs.symm⟩
    · next heq =>
        cases heq
        simp only [leaves_bind, leaves_return] at h
        obtain ⟨middle, codec, last, hcodec, ⟨rfl, rfl⟩, rfl⟩ := h
        rw [List.append_nil]
        exact .inr ⟨value, codec, hvalue, hcodec, rfl⟩

theorem trace_fromRequired (h : (fromRequired location schema).Leaves events codecs) :
    (events = [] ∧ codecs = []) ∨
      ∃ keys properties, (each (requiredProperty location) keys).Leaves events properties ∧
        codecs = [.object .interface properties] := by
  unfold fromRequired at h
  split at h
  · obtain ⟨hevents, hcodecs⟩ := leaves_pure.1 h
    exact .inl ⟨hevents, hcodecs.symm⟩
  · simp only [leaves_bind, leaves_return] at h
    obtain ⟨before, properties, after, hproperties, ⟨rfl, rfl⟩, rfl⟩ := h
    rw [List.append_nil]
    exact .inr ⟨_, properties, hproperties, rfl⟩
  · exact (leaves_fail.1 h).elim

theorem trace_requiredProperty {item : Document × Nat} {property : Codec.Property Codec}
    (h : (requiredProperty location item).Leaves events property) :
    (helperCodec .defined).Leaves events property.type := by
  unfold requiredProperty at h
  split at h
  · simp only [leaves_bind, leaves_return] at h
    obtain ⟨before, codec, after, hcodec, ⟨rfl, rfl⟩, rfl⟩ := h
    rwa [List.append_nil]
  · exact (leaves_fail.1 h).elim

theorem trace_fromObject (h : (fromObject convert location schema).Leaves events codecs) :
    ∃ e₁ e₂ e₃ e₄ e₅ properties names patterns others required,
      (fromProperties convert location schema).Leaves e₁ properties ∧
      (fromPropertyNames convert location schema).Leaves e₂ names ∧
      (fromPatternProperties convert location schema).Leaves e₃ patterns ∧
      (fromAdditionalProperties convert location schema).Leaves e₄ others ∧
      (fromRequired location schema).Leaves e₅ required ∧
      events = e₁ ++ e₂ ++ e₃ ++ e₄ ++ e₅ ∧
      codecs = intersect (properties ++ names ++ patterns ++ others) ++ required := by
  simp only [fromObject, leaves_bind, leaves_return] at h
  obtain ⟨e₁, properties, -, hproperties, ⟨e₂, names, -, hnames, ⟨e₃, patterns, -, hpatterns,
    ⟨e₄, others, -, hothers, ⟨e₅, required, -, hrequired, ⟨rfl, rfl⟩, rfl⟩, rfl⟩, rfl⟩, rfl⟩,
    rfl⟩ := h
  refine ⟨e₁, e₂, e₃, e₄, e₅, properties, names, patterns, others, required, hproperties, hnames,
    hpatterns, hothers, hrequired, ?_, rfl⟩
  simp only [List.append_assoc, List.append_nil]

/-! Arrays -/

theorem trace_fromItems (h : (fromItems convert location schema).Leaves events codecs) :
    (schema.get? "items" = none ∧ events = [] ∧ codecs = []) ∨
      (∃ accepts, schema.get? "items" = some (.bool accepts) ∧ events = [] ∧
        codecs = if accepts then [] else [.tuple []]) ∨
      (∃ schemas parts, schema.get? "items" = some (.array schemas) ∧
        (convertList convert "items" location schemas).Leaves events parts ∧
        codecs = [.tuple parts]) ∨
      ∃ item codec, schema.get? "items" = some item ∧ item.oneOrMany = [item] ∧
        (convert (location.down ["items"]) item).Leaves events codec ∧ codecs = [.array codec] := by
  rcases trace_valueUnder h with ⟨hnone, h⟩ | ⟨value, hvalue, h⟩
  · obtain ⟨hevents, hcodecs⟩ := leaves_return.1 h
    exact .inl ⟨hnone, hevents, hcodecs.symm⟩
  · cases value with
    | bool accepts =>
        refine .inr (.inl ⟨accepts, hvalue, ?_⟩)
        cases accepts with
        | true =>
            obtain ⟨hevents, hcodecs⟩ := leaves_return.1 h
            exact ⟨hevents, hcodecs.symm⟩
        | false =>
            obtain ⟨hevents, hcodecs⟩ := leaves_return.1 h
            exact ⟨hevents, hcodecs.symm⟩
    | array schemas =>
        simp only at h
        split at h
        · simp only [leaves_bind, leaves_return] at h
          obtain ⟨middle, parts, last, hparts, ⟨rfl, rfl⟩, rfl⟩ := h
          rw [List.append_nil]
          exact .inr (.inr (.inl ⟨schemas, parts, hvalue, hparts, rfl⟩))
        · exact (leaves_fail.1 h).elim
    | _ =>
        simp only [leaves_bind, leaves_return] at h
        obtain ⟨middle, codec, last, hcodec, ⟨rfl, rfl⟩, rfl⟩ := h
        rw [List.append_nil]
        exact .inr (.inr (.inr ⟨_, codec, hvalue, rfl, hcodec, rfl⟩))

/-! Values -/

theorem trace_fromType (h : (fromType scope schema).Leaves events codecs) :
    (schema.get? "type" = none ∧ events = [] ∧ codecs = []) ∨
      ∃ type parts, schema.get? "type" = some type ∧
        (each (fun name => fromTypeName scope schema type (name.string?.getD ""))
          type.oneOrMany).Leaves events parts ∧
        codecs = unite parts.flatten := by
  unfold fromType at h
  split at h
  · next hnone =>
      obtain ⟨hevents, hcodecs⟩ := leaves_pure.1 h
      exact .inl ⟨hnone, hevents, hcodecs.symm⟩
  · next type htype =>
      simp only [leaves_bind, leaves_return] at h
      obtain ⟨before, parts, after, hparts, ⟨rfl, rfl⟩, rfl⟩ := h
      rw [List.append_nil]
      exact .inr ⟨type, parts, htype, hparts, rfl⟩

theorem trace_fromEnum (h : (fromEnum scope location schema).Leaves events codecs) :
    (events = [] ∧ codecs = []) ∨
      ∃ values members, (each (enumMember scope location) values).Leaves events members ∧
        codecs = unite members := by
  unfold fromEnum at h
  split at h
  · obtain ⟨hevents, hcodecs⟩ := leaves_pure.1 h
    exact .inl ⟨hevents, hcodecs.symm⟩
  · simp only [leaves_bind, leaves_return] at h
    obtain ⟨before, members, after, hmembers, ⟨rfl, rfl⟩, rfl⟩ := h
    rw [List.append_nil]
    exact .inr ⟨_, members, hmembers, rfl⟩
  · exact (leaves_fail.1 h).elim

theorem trace_enumMember {item : Document × Nat} {codec : Codec}
    (h : (enumMember scope location item).Leaves events codec) :
    (nullCodec scope).Leaves events codec ∨ events = [] ∧ ∃ literal, codec = .literal literal := by
  unfold enumMember at h
  split at h
  · exact .inl h
  · split at h
    · obtain ⟨hevents, hcodec⟩ := leaves_pure.1 h
      exact .inr ⟨hevents, _, hcodec.symm⟩
    · exact (leaves_fail.1 h).elim

theorem trace_fromConst (h : (fromConst location schema).Leaves events codecs) :
    events = [] ∧ (codecs = [] ∨ ∃ literal, codecs = [.literal literal]) := by
  unfold fromConst at h
  split at h
  · obtain ⟨hevents, hcodecs⟩ := leaves_pure.1 h
    exact ⟨hevents, .inl hcodecs.symm⟩
  · split at h
    · obtain ⟨hevents, hcodecs⟩ := leaves_pure.1 h
      exact ⟨hevents, .inr ⟨_, hcodecs.symm⟩⟩
    · exact (leaves_fail.1 h).elim

/-! Schemas -/

theorem trace_fromAll {keyword : String}
    (h : (fromAll convert keyword location schema).Leaves events codecs) :
    (schema.get? keyword = none ∧ events = [] ∧ codecs = []) ∨
      ∃ schemas, schema.get? keyword = some (.array schemas) ∧
        (convertList convert keyword location schemas).Leaves events codecs := by
  unfold fromAll at h
  split at h
  · next hnone =>
      obtain ⟨hevents, hcodecs⟩ := leaves_pure.1 h
      exact .inl ⟨hnone, hevents, hcodecs.symm⟩
  · next schemas hschemas => exact .inr ⟨schemas, hschemas, h⟩
  · exact (leaves_fail.1 h).elim

theorem trace_contributions
    (h : (contributions scope convert location schema).Leaves events codecs) :
    ∃ e₁ e₂ e₃ e₄ e₅ e₆ e₇ e₈ types object array enum const allOf anyOf oneOf,
      (fromType scope schema).Leaves e₁ types ∧
      (fromObject convert location schema).Leaves e₂ object ∧
      (fromArray convert location schema).Leaves e₃ array ∧
      (fromEnum scope location schema).Leaves e₄ enum ∧
      (fromConst location schema).Leaves e₅ const ∧
      (fromAll convert "allOf" location schema).Leaves e₆ allOf ∧
      (fromAll convert "anyOf" location schema).Leaves e₇ anyOf ∧
      (fromAll convert "oneOf" location schema).Leaves e₈ oneOf ∧
      events = e₁ ++ e₂ ++ e₃ ++ e₄ ++ e₅ ++ e₆ ++ e₇ ++ e₈ ∧
      codecs = types ++ object ++ array ++ enum ++ const ++ intersect allOf ++ unite anyOf ++
        unite oneOf := by
  simp only [contributions, leaves_bind, leaves_return] at h
  obtain ⟨e₁, types, -, htypes, ⟨e₂, object, -, hobject, ⟨e₃, array, -, harray, ⟨e₄, enum, -, henum,
    ⟨e₅, const, -, hconst, ⟨e₆, allOf, -, hallOf, ⟨e₇, anyOf, -, hanyOf, ⟨e₈, oneOf, -, honeOf,
    ⟨rfl, rfl⟩, rfl⟩, rfl⟩, rfl⟩, rfl⟩, rfl⟩, rfl⟩, rfl⟩, rfl⟩ := h
  refine ⟨e₁, e₂, e₃, e₄, e₅, e₆, e₇, e₈, types, object, array, enum, const, allOf, anyOf, oneOf,
    htypes, hobject, harray, henum, hconst, hallOf, hanyOf, honeOf, ?_, rfl⟩
  simp only [List.append_assoc, List.append_nil]

theorem trace_compose {codec : Codec} (h : (compose location schema codecs).Leaves events codec) :
    events = [] ∧ (codecs = [] ∧ codec = .unknown ∨ codecs = [codec] ∨
      codec = .intersection codecs) := by
  unfold compose at h
  split at h
  · split at h
    · obtain ⟨hevents, hcodec⟩ := leaves_pure.1 h
      exact ⟨hevents, .inl ⟨rfl, hcodec.symm⟩⟩
    · exact (leaves_fail.1 h).elim
  · obtain ⟨hevents, rfl⟩ := leaves_pure.1 h
    exact ⟨hevents, .inr (.inl rfl)⟩
  · obtain ⟨hevents, hcodec⟩ := leaves_pure.1 h
    exact ⟨hevents, .inr (.inr hcodec.symm)⟩

/-- A schema is a boolean, a reference, or made of what its keywords contribute. -/
theorem trace_compileBy {isTop : Bool} {codec : Codec}
    (h : (compileBy convert scope isTop location schema).Leaves events codec) :
    (∃ accepts, schema = .bool accepts ∧ events = [.required .codecs] ∧
      codec = if accepts then .unknown else .never) ∨
    (∃ text before after, schema.get? "$ref" = some (.string text) ∧
      (reportKeywords isTop schema).Leaves before () ∧
      (fromReference scope location schema text).Leaves after codec ∧ events = before ++ after) ∨
    ∃ before after codecs, schema.get? "$ref" = none ∧
      (reportKeywords isTop schema).Leaves before () ∧
      (contributions scope convert location schema).Leaves after codecs ∧
      (compose location schema codecs).Leaves [] codec ∧
      events = before ++ .required .codecs :: after := by
  unfold compileBy at h
  split at h
  · simp only [leaves_bind, leaves_require, leaves_return] at h
    obtain ⟨before, -, after, rfl, ⟨rfl, rfl⟩, rfl⟩ := h
    exact .inl ⟨_, rfl, rfl, rfl⟩
  · simp only [leaves_bind] at h
    obtain ⟨before, _, after, hkeywords, ⟨middle, text, last, htext, hcodec, rfl⟩, rfl⟩ := h
    have href := gives_referenceAt.mp (gives_anything_iff.mpr htext.result)
    rw [events_referenceAt htext, List.nil_append]
    cases text with
    | some text => exact .inr (.inl ⟨text, before, last, href, hkeywords, hcodec, rfl⟩)
    | none =>
        simp only [leaves_bind, leaves_require] at hcodec
        obtain ⟨first, -, rest, rfl, ⟨second, codecs, third, hcodecs, hcompose, rfl⟩, rfl⟩ := hcodec
        obtain ⟨rfl, -⟩ := trace_compose hcompose
        rw [List.append_nil]
        exact .inr (.inr ⟨before, second, codecs, href, hkeywords, hcodecs, hcompose, rfl⟩)
  · exact (leaves_fail.1 h).elim

end SchemaCodec.Conversion
