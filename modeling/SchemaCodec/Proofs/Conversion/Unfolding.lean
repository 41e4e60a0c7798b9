import SchemaCodec.Proofs.Conversion.Contribution

namespace SchemaCodec.Conversion

/-! The codec of a schema in terms of the codecs of the schemas below it: the bound on the depth
does not show. -/

private theorem bind_congr {first : Conversion α} {next other : α → Conversion β}
    (h : ∀ value, first.result = .ok value → next value = other value) :
    first >>= next = first >>= other := by
  change Conversion.bind first next = Conversion.bind first other
  unfold Conversion.bind
  cases hfirst : first.result with
  | error fault => rfl
  | ok value => simp only [h value hfirst]

private theorem each_congr {convert other : α → Conversion β} {items : List α}
    (h : ∀ item ∈ items, convert item = other item) :
    each convert items = each other items := by
  induction items with
  | nil => rfl
  | cons item rest ih =>
      have hrest : each convert rest = each other rest :=
        ih fun found hfound => h found (List.mem_cons_of_mem _ hfound)
      rw [each, each, h item (List.mem_cons_self ..), hrest]

private theorem convertMap_congr {convert other : Converter} {keyword : String}
    {location : Location}
    {members : List (String × Document)}
    (h : ∀ name part, (name, part) ∈ members → ∀ place, convert place part = other place part) :
    convertMap convert keyword location members = convertMap other keyword location members := by
  apply each_congr
  intro member hmember
  simp only [h member.1 member.2 hmember]

private theorem convertList_congr {convert other : Converter} {keyword : String}
    {location : Location}
    {schemas : List Document}
    (h : ∀ part ∈ schemas, ∀ place, convert place part = other place part) :
    convertList convert keyword location schemas =
      convertList other keyword location schemas := by
  apply each_congr
  intro entry hentry
  exact h entry.1 (List.fst_mem_of_mem_zipIdx hentry) _

/-! Two converters that agree on the schemas below a schema contribute the same to it. -/

section

variable {convert other : Converter} {scope : Scope} {location : Location} {schema : Document}

private theorem fromProperties_congr (href : schema.get? "$ref" = none)
    (h : ∀ part ∈ schema.subschemas, ∀ place, convert place part = other place part) :
    fromProperties convert location schema = fromProperties other location schema := by
  unfold fromProperties
  apply bind_congr
  intro value hvalue
  cases value with
  | none => rfl
  | some members =>
      have hmembers := (gives_schemaMap.mp (gives_anything_iff.mpr hvalue)).1
      have hsame : convertMap convert "properties" location members =
          convertMap other "properties" location members :=
        convertMap_congr fun name part hpart =>
          h part (Document.mem_subschemas_of_map href (.inl rfl) hmembers hpart)
      simp only [hsame]

private theorem fromPropertyNames_congr (href : schema.get? "$ref" = none)
    (h : ∀ part ∈ schema.subschemas, ∀ place, convert place part = other place part) :
    fromPropertyNames convert location schema = fromPropertyNames other location schema := by
  unfold fromPropertyNames
  apply bind_congr
  intro value hvalue
  cases value with
  | none => rfl
  | some names =>
      have hnames := (gives_objectKeyword.mp (gives_anything_iff.mpr hvalue)).1
      simp only [h names (Document.mem_subschemas_of_value href (.inl rfl) hnames)]

private theorem fromPatternProperties_congr (href : schema.get? "$ref" = none)
    (h : ∀ part ∈ schema.subschemas, ∀ place, convert place part = other place part) :
    fromPatternProperties convert location schema =
      fromPatternProperties other location schema := by
  unfold fromPatternProperties
  apply bind_congr
  intro value hvalue
  cases value with
  | none => rfl
  | some patterns =>
      have hpatterns := (gives_schemaMap.mp (gives_anything_iff.mpr hvalue)).1
      have hmatched : convertMap convert "patternProperties" location patterns =
          convertMap other "patternProperties" location patterns :=
        convertMap_congr fun name part hpart =>
          h part (Document.mem_subschemas_of_map href (.inr rfl) hpatterns hpart)
      have hnamed : convertMap convert "properties" location
            ((schema.get? "properties").getD .null).members =
          convertMap other "properties" location
            ((schema.get? "properties").getD .null).members := by
        apply convertMap_congr
        intro name part hpart
        cases hproperties : schema.get? "properties" with
        | none => simp [hproperties, Document.members] at hpart
        | some map =>
            rw [hproperties] at hpart
            exact h part (Document.mem_subschemas_of_map href (.inl rfl) hproperties hpart)
      simp only [hnamed, hmatched]

private theorem fromAdditionalProperties_congr (href : schema.get? "$ref" = none)
    (h : ∀ part ∈ schema.subschemas, ∀ place, convert place part = other place part) :
    fromAdditionalProperties convert location schema =
      fromAdditionalProperties other location schema := by
  unfold fromAdditionalProperties
  apply bind_congr
  intro found hfound
  split
  · rfl
  · rfl
  · next value _ =>
      have hvalue := (gives_objectKeyword.mp (gives_anything_iff.mpr hfound)).1
      rw [h value (Document.mem_subschemas_of_value href (.inr rfl) hvalue)]

private theorem fromObject_congr (href : schema.get? "$ref" = none)
    (h : ∀ part ∈ schema.subschemas, ∀ place, convert place part = other place part) :
    fromObject convert location schema = fromObject other location schema := by
  unfold fromObject
  rw [fromProperties_congr href h, fromPropertyNames_congr href h,
    fromPatternProperties_congr href h, fromAdditionalProperties_congr href h]

private theorem fromItems_congr (href : schema.get? "$ref" = none)
    (h : ∀ part ∈ schema.subschemas, ∀ place, convert place part = other place part) :
    fromItems convert location schema = fromItems other location schema := by
  unfold fromItems
  apply bind_congr
  intro found hfound
  have hitems := (gives_valueUnder.mp (gives_anything_iff.mpr hfound)).1
  cases found with
  | none => rfl
  | some items =>
      have hbelow : ∀ part ∈ items.oneOrMany, ∀ place, convert place part = other place part :=
        fun part hpart => h part (Document.mem_subschemas_of_items href hitems hpart)
      cases items with
      | bool accepts => cases accepts <;> rfl
      | array schemas =>
          have hsame : convertList convert "items" location schemas =
              convertList other "items" location schemas := convertList_congr hbelow
          simp only [hsame]
      | _ => simp only [hbelow _ (List.mem_singleton.mpr rfl)]

private theorem fromAll_congr {keyword : String} (href : schema.get? "$ref" = none)
    (hkeyword : keyword = "allOf" ∨ keyword = "anyOf" ∨ keyword = "oneOf")
    (h : ∀ part ∈ schema.subschemas, ∀ place, convert place part = other place part) :
    fromAll convert keyword location schema = fromAll other keyword location schema := by
  unfold fromAll
  split
  · rfl
  · next schemas hschemas =>
      exact convertList_congr fun part hpart =>
        h part (Document.mem_subschemas_of_list href hkeyword hschemas hpart)
  · rfl

private theorem contributions_congr (href : schema.get? "$ref" = none)
    (h : ∀ part ∈ schema.subschemas, ∀ place, convert place part = other place part) :
    contributions scope convert location schema = contributions scope other location schema := by
  unfold contributions fromArray
  rw [fromObject_congr href h, fromItems_congr href h,
    fromAll_congr href (.inl rfl) h, fromAll_congr href (.inr (.inl rfl)) h,
    fromAll_congr href (.inr (.inr rfl)) h]

private theorem compileBy_congr {isTop : Bool}
    (h : ∀ part ∈ schema.subschemas, ∀ place, convert place part = other place part) :
    compileBy convert scope isTop location schema =
      compileBy other scope isTop location schema := by
  unfold compileBy
  cases schema with
  | object members =>
      simp only
      apply bind_congr
      intro _ _
      cases href : (Document.object members).get? "$ref" with
      | some target =>
          apply bind_congr
          intro found hfound
          cases target with
          | string text =>
              simp only [referenceAt, href, Conversion.pure, Except.ok.injEq] at hfound
              rw [← hfound]
          | _ => simp [referenceAt, href, fail, stop] at hfound
      | none => rw [contributions_congr href h]
  | _ => rfl

end

/-- Bounds above the depth of a schema do not matter. -/
theorem compileWithin_eq {scope : Scope} {first second : Nat} {isTop : Bool}
    {location : Location} {schema : Document} (hfirst : schema.depth < first)
    (hsecond : schema.depth < second) :
    compileWithin scope first isTop location schema =
      compileWithin scope second isTop location schema := by
  induction first generalizing second isTop location schema with
  | zero => omega
  | succ first ih =>
      cases second with
      | zero => omega
      | succ second =>
          rw [compileWithin, compileWithin]
          -- One level down, only schemas below this one are converted, and those are less deep.
          apply compileBy_congr
          intro part hpart place
          have hdepth := Document.depth_lt_of_mem_subschemas hpart
          exact ih (by omega) (by omega)

theorem compile_unfold (scope : Scope) (isTop : Bool) (location : Location)
    (schema : Document) :
    compile scope isTop location schema =
      compileBy (compile scope false) scope isTop location schema := by
  rw [compile, compileWithin]
  apply compileBy_congr
  intro part hpart place
  exact compileWithin_eq (Document.depth_lt_of_mem_subschemas hpart) (Nat.lt_succ_self _)

/-! What a conversion that succeeds has gone through. -/

variable {allowed : Event → Prop} {scope : Scope} {isTop : Bool} {location : Location}
  {schema : Document} {codec : Codec}

theorem gives_reportKeywords {value : Unit} :
    (reportKeywords isTop schema).Gives allowed value ↔
      (∀ type, schema.stringAt? "type" = some type → (!isTop && isPlainType type) = true →
        allowed (.reported (.info
          ("primitive type \"" ++ type ++ "\" used outside top-level definitions")))) ∧
      ∀ message ∈ unsupportedKeywords isTop schema, allowed (.reported (.warning message)) := by
  unfold reportKeywords
  cases htype : schema.stringAt? "type" with
  | none => simp
  | some type =>
      simp only
      by_cases hplain : (!isTop && isPlainType type) = true
      · rw [if_pos hplain, gives_bind]
        simp only [gives_info, gives_warnAll]
        constructor
        · intro h
          obtain ⟨-, hinfo, hwarnings⟩ := h
          refine ⟨fun found hfound _ => ?_, hwarnings⟩
          cases hfound
          exact hinfo
        · intro h
          exact ⟨(), h.1 type rfl hplain, h.2⟩
      · rw [if_neg hplain, gives_warnAll]
        constructor
        · intro hwarnings
          refine ⟨fun found hfound h => ?_, hwarnings⟩
          cases hfound
          exact absurd h hplain
        · exact And.right

theorem gives_referenceAt {value : Option String} :
    (referenceAt location schema).Gives allowed value ↔
      schema.get? "$ref" = value.map .string := by
  unfold referenceAt
  cases schema.get? "$ref" with
  | none => cases value <;> simp
  | some target =>
      cases target with
      | string text => cases value <;> simp
      | _ => cases value <;> simp

theorem gives_compile_bool {accepts : Bool} :
    (compile scope isTop location (.bool accepts)).Gives allowed codec ↔
      allowed (.required .codecs) ∧ codec = if accepts then .unknown else .never := by
  rw [compile_unfold, compileBy]
  simp only [gives_bind, gives_require, gives_return]
  constructor
  · intro h
    obtain ⟨_, hallowed, rfl⟩ := h
    exact ⟨hallowed, rfl⟩
  · intro h
    obtain ⟨hallowed, rfl⟩ := h
    exact ⟨(), hallowed, rfl⟩

theorem gives_compile_reference {members : List (String × Document)} {target : Document}
    (href : (Document.object members).get? "$ref" = some target) :
    (compile scope isTop location (.object members)).Gives allowed codec ↔
      (reportKeywords isTop (.object members)).Gives allowed () ∧
      ∃ text, target = .string text ∧
        (fromReference scope location (.object members) text).Gives allowed codec := by
  rw [compile_unfold, compileBy]
  simp only [gives_bind, gives_referenceAt, href]
  constructor
  · intro h
    obtain ⟨_, hreport, value, hvalue, h⟩ := h
    cases value with
    | none => cases hvalue
    | some text => exact ⟨hreport, text, Option.some.inj hvalue, h⟩
  · intro h
    obtain ⟨hreport, text, rfl, h⟩ := h
    exact ⟨(), hreport, some text, rfl, h⟩

theorem gives_compile_object {members : List (String × Document)}
    (href : (Document.object members).get? "$ref" = none) :
    (compile scope isTop location (.object members)).Gives allowed codec ↔
      (reportKeywords isTop (.object members)).Gives allowed () ∧
      allowed (.required .codecs) ∧
      ∃ parts : Contributions allowed scope (compile scope false) location (.object members),
        (compose location (.object members) parts.all).Gives allowed codec := by
  rw [compile_unfold, compileBy]
  simp only [gives_bind, gives_referenceAt, href]
  constructor
  · intro h
    obtain ⟨_, hreport, value, hvalue, h⟩ := h
    cases value with
    | some text => cases hvalue
    | none =>
        simp only [gives_bind, gives_require, gives_contributions] at h
        obtain ⟨-, hallowed, codecs, ⟨parts, rfl⟩, hcodec⟩ := h
        exact ⟨hreport, hallowed, parts, hcodec⟩
  · intro h
    obtain ⟨hreport, hallowed, parts, hcodec⟩ := h
    refine ⟨(), hreport, none, rfl, ?_⟩
    simp only [gives_bind, gives_require, gives_contributions]
    exact ⟨(), hallowed, parts.all, ⟨parts, rfl⟩, hcodec⟩

/-- Only booleans and objects are schemas. -/
theorem isSchema_of_gives_compile
    (h : (compile scope isTop location schema).Gives allowed codec) :
    (∃ accepts, schema = .bool accepts) ∨ ∃ members, schema = .object members := by
  rw [compile_unfold] at h
  cases schema with
  | bool accepts => exact .inl ⟨accepts, rfl⟩
  | object members => exact .inr ⟨members, rfl⟩
  | _ => simp [compileBy] at h

end SchemaCodec.Conversion
