import SchemaCodec.Proofs.Conversion.Unfolding

namespace SchemaCodec.Conversion

/-! Which rules a schema can break, at which of its parts, and that a conversion stops for no other
reason. -/

/-- Only allowed faults can stop the conversion. -/
def FailsOnly (allowed : Fault → Prop) (conversion : Conversion α) : Prop :=
  ∀ fault, conversion.result = .error fault → allowed fault

section

variable {allowed : Fault → Prop}

theorem failsOnly_of_ok {conversion : Conversion α} {value : α}
    (h : conversion.result = .ok value) : conversion.FailsOnly allowed := by
  intro fault hfault
  rw [h] at hfault
  cases hfault

theorem FailsOnly.mono {conversion : Conversion α} {other : Fault → Prop}
    (h : conversion.FailsOnly allowed) (hallowed : ∀ fault, allowed fault → other fault) :
    conversion.FailsOnly other :=
  fun fault hfault => hallowed fault (h fault hfault)

theorem failsOnly_fail {location : Location} {problem : Fault.Problem}
    (h : allowed (.located ⟨location, problem⟩)) :
    (fail location problem : Conversion α).FailsOnly allowed := by
  intro fault hfault
  cases hfault
  exact h

theorem failsOnly_bind {first : Conversion α} {next : α → Conversion β}
    (hfirst : first.FailsOnly allowed)
    (hnext : ∀ value, first.result = .ok value → (next value).FailsOnly allowed) :
    (first >>= next).FailsOnly allowed := by
  intro fault hfault
  change (Conversion.bind first next).result = _ at hfault
  unfold Conversion.bind at hfault
  cases hresult : first.result with
  | error cause =>
      rw [hresult] at hfault
      cases hfault
      exact hfirst fault hresult
  | ok value =>
      rw [hresult] at hfault
      exact hnext value hresult fault hfault

theorem failsOnly_each {convert : α → Conversion β} {items : List α}
    (h : ∀ item ∈ items, (convert item).FailsOnly allowed) :
    (each convert items).FailsOnly allowed := by
  induction items with
  | nil => exact failsOnly_of_ok rfl
  | cons item rest ih =>
      rw [List.forall_mem_cons] at h
      apply failsOnly_bind h.1
      intro first _
      exact failsOnly_bind (ih h.2) fun others _ => failsOnly_of_ok rfl

theorem failsOnly_ofExcept {outcome : Except Fault α}
    (h : ∀ fault, outcome = .error fault → allowed fault) :
    (ofExcept outcome).FailsOnly allowed := by
  cases outcome with
  | ok value => exact failsOnly_of_ok rfl
  | error cause =>
      intro fault hfault
      cases hfault
      exact h cause rfl

theorem failsOnly_reportIf {condition : Prop} [Decidable condition] {note : Report}
    {next : Unit → Conversion β} (h : (next ()).FailsOnly allowed) :
    (if condition then report note >>= next else next ()).FailsOnly allowed := by
  split
  · exact failsOnly_bind (failsOnly_of_ok rfl) fun _ _ => h
  · exact h

theorem failsOnly_warnAll (messages : List String) : (warnAll messages).FailsOnly allowed := by
  induction messages with
  | nil => exact failsOnly_of_ok rfl
  | cons message rest ih => exact failsOnly_bind (failsOnly_of_ok rfl) fun _ _ => ih

end

/-! What is inside a schema, and what can be wrong with it -/

def objectKeywords : List String :=
  ["properties", "propertyNames", "patternProperties", "additionalProperties"]

def combiningKeywords : List String :=
  ["allOf", "anyOf", "oneOf"]

/-- The schemas directly inside a schema, with the steps that lead to them. -/
inductive Part (schema : Document) : Pointer → Document → Prop
  | member {keyword key : String} {members : List (String × Document)} {value : Document} :
      keyword ∈ ["properties", "patternProperties"] →
      schema.get? keyword = some (.object members) → (key, value) ∈ members →
      Part schema [keyword, key] value
  | value {keyword : String} {value : Document} :
      keyword ∈ ["propertyNames", "additionalProperties", "items"] →
      schema.get? keyword = some value → Part schema [keyword] value
  | item {keyword : String} {items : List Document} {index : Nat} {value : Document} :
      keyword ∈ "items" :: combiningKeywords →
      schema.get? keyword = some (.array items) → items[index]? = some value →
      Part schema [keyword, toString index] value

/-- No keyword of the schema contributes a codec. -/
structure Silent (scope : Scope) (schema : Document) : Prop where
  type : (fromType scope schema).result = .ok []
  properties : schema.get? "properties" = none
  names : schema.get? "propertyNames" = none
  patterns : schema.get? "patternProperties" = none ∨
    schema.get? "patternProperties" = some (.object [])
  others : schema.get? "additionalProperties" = none ∨
    schema.get? "additionalProperties" = some (.bool false)
  required : schema.get? "required" = none
  items : schema.get? "items" = none ∨ schema.get? "items" = some (.bool true)
  enum : schema.get? "enum" = none ∨ schema.get? "enum" = some (.array [])
  const : schema.get? "const" = none
  combined : ∀ keyword ∈ combiningKeywords,
    schema.get? keyword = none ∨ schema.get? keyword = some (.array [])

/-- The rules that a schema breaks by itself, with the steps to what breaks them. -/
inductive Breaks (scope : Scope) (schema : Document) : Pointer → Fault.Problem → Prop
  | notSchema : schema.isObject = false → (∀ accepts, schema ≠ .bool accepts) →
      Breaks scope schema [] (.notSchema schema.kind)
  | withoutMeaning : schema.isObject = true → Silent scope schema →
      (Constraint.isConstrained schema || isAnnotation schema) = false →
      Breaks scope schema [] (.withoutMeaning schema)
  | outsideObject {keyword : String} {value : Document} : keyword ∈ objectKeywords →
      schema.get? keyword = some value → schema.stringAt? "type" ≠ some "object" →
      Breaks scope schema [keyword] (.outsideObject keyword)
  | outsideArray {value : Document} : schema.get? "items" = some value →
      schema.stringAt? "type" ≠ some "array" → Breaks scope schema ["items"] (.outsideArray "items")
  | notObject {keyword : String} {value : Document} :
      keyword ∈ ["properties", "patternProperties"] → schema.get? keyword = some value →
      value.isObject = false → Breaks scope schema [keyword] (.notObject keyword)
  | openTuple {items : List Document} : schema.get? "items" = some (.array items) →
      schema.falseAt "additionalItems" = false → Breaks scope schema ["items"] .openTuple
  | requiredNotArray {value : Document} : schema.get? "required" = some value →
      value.isArray = false → Breaks scope schema ["required"] .notKeys
  | requiredNotString {keys : List Document} {index : Nat} {value : Document} :
      schema.get? "required" = some (.array keys) → keys[index]? = some value →
      value.string? = none → Breaks scope schema ["required", toString index] .notKeys
  | enumNotArray {value : Document} : schema.get? "enum" = some value → value.isArray = false →
      Breaks scope schema ["enum"] .enumNotArray
  | enumNotLiteral {values : List Document} {index : Nat} {value : Document} :
      schema.get? "enum" = some (.array values) → values[index]? = some value → value ≠ .null →
      literal? value = none →
      Breaks scope schema ["enum", toString index] (.notLiteral "ENUM" (runtimeType value))
  | constNotLiteral {value : Document} : schema.get? "const" = some value →
      literal? value = none →
      Breaks scope schema ["const"] (.notLiteral "CONST" (runtimeType value))
  | notArray {keyword : String} {value : Document} : keyword ∈ combiningKeywords →
      schema.get? keyword = some value → value.isArray = false →
      Breaks scope schema [keyword] (.notArray keyword)
  | referenceNotString {value : Document} : schema.get? "$ref" = some value →
      value.string? = none → Breaks scope schema ["$ref"] .referenceNotString
  | importName {text : String} {target : Reference} {cause : Digest.UnknownAlgorithm} :
      schema.get? "$ref" = some (.string text) → Reference.parse text = .ok target →
      target.isLocal = false → scope.resolver.importName target.file text = .error cause →
      Breaks scope schema ["$ref"] (.importName cause)

/-- The rules that a schema or a schema inside it breaks. -/
inductive Faulty (scope : Scope) : Document → Pointer → Fault.Problem → Prop
  | here {schema : Document} {steps : Pointer} {problem : Fault.Problem} :
      Breaks scope schema steps problem → Faulty scope schema steps problem
  | inside {schema part : Document} {front rest : Pointer} {problem : Fault.Problem} :
      Part schema front part → Faulty scope part rest problem →
      Faulty scope schema (front ++ rest) problem

private theorem isArray_eq_false {value : Document} (h : ∀ items, value = .array items → False) :
    value.isArray = false := by
  cases value with
  | array items => exact (h items rfl).elim
  | _ => rfl

private theorem isObject_eq_false {value : Document}
    (h : ∀ members, value = .object members → False) :
    value.isObject = false := by
  cases value with
  | object members => exact (h members rfl).elim
  | _ => rfl

private theorem string?_eq_none {value : Document} (h : ∀ text, value = .string text → False) :
    value.string? = none := by
  cases value with
  | string text => exact (h text rfl).elim
  | _ => rfl

/-! One keyword after another -/

section

variable {allowed : Fault → Prop} {convert : Converter} {scope : Scope} {location : Location}
  {schema : Document}

theorem failsOnly_reportKeywords (isTop : Bool) :
    (reportKeywords isTop schema).FailsOnly allowed := by
  unfold reportKeywords
  split
  · exact failsOnly_reportIf (failsOnly_warnAll _)
  · exact failsOnly_warnAll _

theorem failsOnly_nullCodec : (nullCodec scope).FailsOnly allowed := by
  unfold nullCodec
  split
  · exact failsOnly_of_ok rfl
  · exact failsOnly_of_ok rfl

theorem failsOnly_fromType : (fromType scope schema).FailsOnly allowed := by
  have hname : ∀ type name, (fromTypeName scope schema type name).FailsOnly allowed := by
    intro type name
    unfold fromTypeName
    split
    case h_5 => exact failsOnly_bind failsOnly_nullCodec fun codec _ => failsOnly_of_ok rfl
    all_goals exact failsOnly_of_ok rfl
  unfold fromType
  split
  · exact failsOnly_of_ok rfl
  · exact failsOnly_bind (failsOnly_each fun name _ => hname _ _) fun codecs _ =>
      failsOnly_of_ok rfl

section

-- The faults of the schema's own keywords are allowed.
variable (hbreaks : ∀ steps problem, steps ≠ [] → Breaks scope schema steps problem →
  allowed (.located ⟨location.down steps, problem⟩))
include hbreaks

theorem failsOnly_referenceAt : (referenceAt location schema).FailsOnly allowed := by
  unfold referenceAt
  split
  · exact failsOnly_of_ok rfl
  · exact failsOnly_of_ok rfl
  · next value hstring hvalue =>
      apply failsOnly_fail
      exact hbreaks _ _ (List.cons_ne_nil _ _)
        (.referenceNotString hvalue (string?_eq_none hstring))

theorem failsOnly_fromReference {text : String} (htext : schema.get? "$ref" = some (.string text)) :
    (fromReference scope location schema text).FailsOnly allowed := by
  apply failsOnly_reportIf
  split
  · exact failsOnly_of_ok rfl
  · next target htarget =>
      split
      · exact failsOnly_of_ok rfl
      · next hlocal =>
          split
          · next cause hcause =>
              apply failsOnly_fail
              exact hbreaks _ _ (List.cons_ne_nil _ _)
                (.importName htext htarget (Bool.eq_false_iff.mpr hlocal) hcause)
          · exact failsOnly_of_ok rfl

private theorem failsOnly_objectKeyword {keyword : String} (hkeyword : keyword ∈ objectKeywords) :
    (objectKeyword keyword location schema).FailsOnly allowed := by
  unfold objectKeyword valueUnder
  split
  · exact failsOnly_of_ok rfl
  · next value hvalue =>
      split
      · exact failsOnly_of_ok rfl
      · next htype =>
          apply failsOnly_fail
          exact hbreaks _ _ (List.cons_ne_nil _ _) (.outsideObject hkeyword hvalue htype)

private theorem failsOnly_schemaMap {keyword : String}
    (hkeyword : keyword ∈ ["properties", "patternProperties"]) :
    (schemaMap keyword location schema).FailsOnly allowed := by
  have hobject : keyword ∈ objectKeywords := by
    revert hkeyword
    simp only [objectKeywords, List.mem_cons, List.not_mem_nil, or_false]
    rintro (rfl | rfl) <;> simp
  apply failsOnly_bind (failsOnly_objectKeyword hbreaks hobject)
  intro value hresult
  have hvalue := (gives_objectKeyword.mp (gives_anything_iff.mpr hresult)).1
  split
  · exact failsOnly_of_ok rfl
  · exact failsOnly_of_ok rfl
  · next other hmembers =>
      apply failsOnly_fail
      exact hbreaks _ _ (List.cons_ne_nil _ _)
        (.notObject hkeyword hvalue (isObject_eq_false hmembers))

private theorem failsOnly_fromRequired : (fromRequired location schema).FailsOnly allowed := by
  unfold fromRequired
  split
  · exact failsOnly_of_ok rfl
  · next keys hkeys =>
      refine failsOnly_bind (failsOnly_each ?_) fun properties _ => failsOnly_of_ok rfl
      rintro ⟨item, index⟩ hitem
      have hat : keys[index]? = some item := List.mem_zipIdx_iff_getElem?.mp hitem
      unfold requiredProperty
      split
      · exact failsOnly_of_ok rfl
      · next hstring heq =>
          cases heq
          apply failsOnly_fail
          exact hbreaks _ _ (List.cons_ne_nil _ _)
            (.requiredNotString hkeys hat (string?_eq_none hstring))
  · next value hkeys hvalue =>
      apply failsOnly_fail
      exact hbreaks _ _ (List.cons_ne_nil _ _) (.requiredNotArray hvalue (isArray_eq_false hkeys))

private theorem failsOnly_fromEnum : (fromEnum scope location schema).FailsOnly allowed := by
  unfold fromEnum
  split
  · exact failsOnly_of_ok rfl
  · next values hvalues =>
      refine failsOnly_bind (failsOnly_each ?_) fun codecs _ => failsOnly_of_ok rfl
      rintro ⟨item, index⟩ hitem
      have hat : values[index]? = some item := List.mem_zipIdx_iff_getElem?.mp hitem
      unfold enumMember
      split
      · exact failsOnly_nullCodec
      · next hnull heq =>
          cases heq
          split
          · exact failsOnly_of_ok rfl
          · next hliteral =>
              apply failsOnly_fail
              exact hbreaks _ _ (List.cons_ne_nil _ _) (.enumNotLiteral hvalues hat hnull hliteral)
  · next value hvalues hvalue =>
      apply failsOnly_fail
      exact hbreaks _ _ (List.cons_ne_nil _ _) (.enumNotArray hvalue (isArray_eq_false hvalues))

private theorem failsOnly_fromConst : (fromConst location schema).FailsOnly allowed := by
  unfold fromConst
  split
  · exact failsOnly_of_ok rfl
  · next value hvalue =>
      split
      · exact failsOnly_of_ok rfl
      · next hliteral =>
          apply failsOnly_fail
          exact hbreaks _ _ (List.cons_ne_nil _ _) (.constNotLiteral hvalue hliteral)

-- And so are the faults of the schemas inside it.
variable (hparts : ∀ steps part, Part schema steps part →
  (convert (location.down steps) part).FailsOnly allowed)
include hparts

omit hbreaks in
private theorem failsOnly_convertMap {keyword : String} {members : List (String × Document)}
    (hkeyword : keyword ∈ ["properties", "patternProperties"])
    (hmembers : schema.get? keyword = some (.object members)) :
    (convertMap convert keyword location members).FailsOnly allowed := by
  apply failsOnly_each
  rintro ⟨key, value⟩ hmember
  exact failsOnly_bind (hparts _ _ (.member hkeyword hmembers hmember)) fun codec _ =>
    failsOnly_of_ok rfl

omit hbreaks in
private theorem failsOnly_convertList {keyword : String} {items : List Document}
    (hkeyword : keyword ∈ "items" :: combiningKeywords)
    (hitems : schema.get? keyword = some (.array items)) :
    (convertList convert keyword location items).FailsOnly allowed := by
  apply failsOnly_each
  rintro ⟨item, index⟩ hitem
  exact hparts _ _ (.item hkeyword hitems (List.mem_zipIdx_iff_getElem?.mp hitem))

private theorem failsOnly_fromProperties :
    (fromProperties convert location schema).FailsOnly allowed := by
  have hkeyword : "properties" ∈ ["properties", "patternProperties"] := by simp
  apply failsOnly_bind (failsOnly_schemaMap hbreaks hkeyword)
  intro value hresult
  have hvalue := (gives_schemaMap.mp (gives_anything_iff.mpr hresult)).1
  cases value with
  | none => exact failsOnly_of_ok rfl
  | some members =>
      exact failsOnly_bind (failsOnly_convertMap hparts hkeyword hvalue) fun codecs _ =>
        failsOnly_of_ok rfl

private theorem failsOnly_fromPropertyNames :
    (fromPropertyNames convert location schema).FailsOnly allowed := by
  apply failsOnly_bind (failsOnly_objectKeyword hbreaks (by simp [objectKeywords]))
  intro value hresult
  have hvalue := (gives_objectKeyword.mp (gives_anything_iff.mpr hresult)).1
  cases value with
  | none => exact failsOnly_of_ok rfl
  | some names =>
      exact failsOnly_bind (hparts _ _ (.value (by simp) hvalue)) fun domain _ =>
        failsOnly_of_ok rfl

private theorem failsOnly_fromPatternProperties :
    (fromPatternProperties convert location schema).FailsOnly allowed := by
  have hkeyword : "patternProperties" ∈ ["properties", "patternProperties"] := by simp
  apply failsOnly_bind (failsOnly_schemaMap hbreaks hkeyword)
  intro value hresult
  have hvalue := (gives_schemaMap.mp (gives_anything_iff.mpr hresult)).1
  cases value with
  | none => exact failsOnly_of_ok rfl
  | some patterns =>
      refine failsOnly_bind (failsOnly_of_ok rfl) fun _ _ => ?_
      refine failsOnly_bind ?_ fun named _ => ?_
      · cases hproperties : schema.get? "properties" with
        | none => exact failsOnly_of_ok rfl
        | some properties =>
            cases properties with
            | object members => exact failsOnly_convertMap hparts (by simp) hproperties
            | _ => exact failsOnly_of_ok rfl
      · exact failsOnly_bind (failsOnly_convertMap hparts hkeyword hvalue) fun matched _ =>
          failsOnly_of_ok rfl

private theorem failsOnly_fromAdditionalProperties :
    (fromAdditionalProperties convert location schema).FailsOnly allowed := by
  apply failsOnly_bind (failsOnly_objectKeyword hbreaks (by simp [objectKeywords]))
  intro value hresult
  have hvalue := (gives_objectKeyword.mp (gives_anything_iff.mpr hresult)).1
  split
  · exact failsOnly_of_ok rfl
  · exact failsOnly_of_ok rfl
  · exact failsOnly_bind (hparts _ _ (.value (by simp) hvalue)) fun codec _ =>
      failsOnly_of_ok rfl

private theorem failsOnly_fromObject : (fromObject convert location schema).FailsOnly allowed := by
  apply failsOnly_bind (failsOnly_fromProperties hbreaks hparts)
  intro properties _
  apply failsOnly_bind (failsOnly_fromPropertyNames hbreaks hparts)
  intro names _
  apply failsOnly_bind (failsOnly_fromPatternProperties hbreaks hparts)
  intro patterns _
  apply failsOnly_bind (failsOnly_fromAdditionalProperties hbreaks hparts)
  intro others _
  exact failsOnly_bind (failsOnly_fromRequired hbreaks) fun required _ => failsOnly_of_ok rfl

private theorem failsOnly_fromArray : (fromArray convert location schema).FailsOnly allowed := by
  have hunder : (valueUnder "array" "items" (.outsideArray "items") location schema).FailsOnly
      allowed := by
    unfold valueUnder
    split
    · exact failsOnly_of_ok rfl
    · next value hvalue =>
        split
        · exact failsOnly_of_ok rfl
        · next htype =>
            apply failsOnly_fail
            exact hbreaks _ _ (List.cons_ne_nil _ _) (.outsideArray hvalue htype)
  have hitems : (fromItems convert location schema).FailsOnly allowed := by
    apply failsOnly_bind hunder
    intro value hresult
    have hvalue := (gives_valueUnder.mp (gives_anything_iff.mpr hresult)).1
    split
    · exact failsOnly_of_ok rfl
    · exact failsOnly_of_ok rfl
    · exact failsOnly_of_ok rfl
    · split
      · exact failsOnly_bind (failsOnly_convertList hparts (by simp) hvalue) fun codecs _ =>
          failsOnly_of_ok rfl
      · next hclosed =>
          apply failsOnly_fail
          exact hbreaks _ _ (List.cons_ne_nil _ _)
            (.openTuple hvalue (Bool.eq_false_iff.mpr hclosed))
    · exact failsOnly_bind (hparts _ _ (.value (by simp) hvalue)) fun codec _ =>
        failsOnly_of_ok rfl
  apply failsOnly_bind hitems
  intro codecs _
  exact failsOnly_reportIf (failsOnly_of_ok rfl)

private theorem failsOnly_fromAll {keyword : String} (hkeyword : keyword ∈ combiningKeywords) :
    (fromAll convert keyword location schema).FailsOnly allowed := by
  unfold fromAll
  split
  · exact failsOnly_of_ok rfl
  · next items hitems =>
      exact failsOnly_convertList hparts (List.mem_cons_of_mem _ hkeyword) hitems
  · next value hitems hvalue =>
      apply failsOnly_fail
      exact hbreaks _ _ (List.cons_ne_nil _ _) (.notArray hkeyword hvalue (isArray_eq_false hitems))

theorem failsOnly_contributions :
    (contributions scope convert location schema).FailsOnly allowed := by
  have hall : ∀ keyword ∈ combiningKeywords,
      (fromAll convert keyword location schema).FailsOnly allowed := fun _ hkeyword =>
    failsOnly_fromAll hbreaks hparts hkeyword
  refine failsOnly_bind failsOnly_fromType fun types _ => ?_
  apply failsOnly_bind (failsOnly_fromObject hbreaks hparts)
  intro object _
  apply failsOnly_bind (failsOnly_fromArray hbreaks hparts)
  intro array _
  apply failsOnly_bind (failsOnly_fromEnum hbreaks)
  intro enum _
  apply failsOnly_bind (failsOnly_fromConst hbreaks)
  intro const _
  apply failsOnly_bind (hall "allOf" (by simp [combiningKeywords]))
  intro allOf _
  apply failsOnly_bind (hall "anyOf" (by simp [combiningKeywords]))
  intro anyOf _
  exact failsOnly_bind (hall "oneOf" (by simp [combiningKeywords])) fun oneOf _ =>
    failsOnly_of_ok rfl

end

theorem silent_of_contributions
    (h : (contributions scope convert location schema).result = .ok []) : Silent scope schema := by
  obtain ⟨parts, hall⟩ := gives_contributions.mp (gives_anything_iff.mpr h)
  obtain ⟨types, object, array, enum, const, allOf, anyOf, oneOf, htypes, hobject, harray, henum,
    hconst, hallOf, hanyOf, honeOf⟩ := parts
  simp only [Contributions.all, List.append_eq_nil_iff, intersect_eq_nil_iff,
    unite_eq_nil_iff] at hall
  obtain ⟨⟨⟨⟨⟨⟨⟨rfl, rfl⟩, rfl⟩, rfl⟩, rfl⟩, rfl⟩, rfl⟩, rfl⟩ := hall
  obtain ⟨properties, names, patterns, others, required, hproperties, hnames, hpatterns, hothers,
    hrequired, hnil⟩ := gives_fromObject.mp hobject
  simp only [List.nil_eq, List.append_eq_nil_iff, intersect_eq_nil_iff] at hnil
  obtain ⟨⟨⟨⟨rfl, rfl⟩, rfl⟩, rfl⟩, rfl⟩ := hnil
  constructor
  case type => exact htypes.result
  case properties => exact (fromProperties_eq_nil_iff hproperties).mp rfl
  case names => exact (fromPropertyNames_eq_nil_iff hnames).mp rfl
  case patterns =>
    rcases (fromPatternProperties_eq_nil_iff hpatterns).mp rfl with hnone | ⟨hempty, -⟩
    · exact .inl hnone
    · exact .inr hempty
  case others => exact (fromAdditionalProperties_eq_nil_iff hothers).mp rfl
  case required => exact (fromRequired_eq_nil_iff hrequired).mp rfl
  case items => exact (fromItems_eq_nil_iff (gives_fromArray.mp harray).1).mp rfl
  case enum => exact (fromEnum_eq_nil_iff henum).mp rfl
  case const => exact (fromConst_eq_nil_iff hconst).mp rfl
  case combined =>
    simp only [combiningKeywords, List.forall_mem_cons]
    exact ⟨(fromAll_eq_nil_iff hallOf).mp rfl, (fromAll_eq_nil_iff hanyOf).mp rfl,
      (fromAll_eq_nil_iff honeOf).mp rfl, List.forall_mem_nil _⟩

private theorem failsOnly_compileBy {isTop : Bool}
    (hbreaks : ∀ steps problem, Breaks scope schema steps problem →
      allowed (.located ⟨location.down steps, problem⟩))
    (hparts : ∀ steps part, Part schema steps part →
      (convert (location.down steps) part).FailsOnly allowed) :
    (compileBy convert scope isTop location schema).FailsOnly allowed := by
  have hhere : location.down [] = location := by
    rw [Location.down, List.append_nil]
  have hinside : ∀ steps problem, steps ≠ [] → Breaks scope schema steps problem →
      allowed (.located ⟨location.down steps, problem⟩) :=
    fun steps problem _ h => hbreaks steps problem h
  unfold compileBy
  split
  · exact failsOnly_of_ok rfl
  · refine failsOnly_bind (failsOnly_reportKeywords isTop) fun _ _ => ?_
    refine failsOnly_bind (failsOnly_referenceAt hinside) fun reference hreference => ?_
    have htext := gives_referenceAt.mp (gives_anything_iff.mpr hreference)
    cases reference with
    | some text => exact failsOnly_fromReference hinside htext
    | none =>
        refine failsOnly_bind (failsOnly_of_ok rfl) fun _ _ => ?_
        refine failsOnly_bind (failsOnly_contributions hinside hparts) fun codecs hcodecs => ?_
        unfold compose
        split
        · split
          · exact failsOnly_of_ok rfl
          · next hmeaning =>
              apply failsOnly_fail
              rw [← hhere]
              exact hbreaks _ _ (.withoutMeaning rfl (silent_of_contributions hcodecs)
                (Bool.eq_false_iff.mpr hmeaning))
        · exact failsOnly_of_ok rfl
        · exact failsOnly_of_ok rfl
  · next hbool hobject =>
      apply failsOnly_fail
      rw [← hhere]
      exact hbreaks _ _ (.notSchema (isObject_eq_false hobject) hbool)

end

private theorem Part.depth_lt {schema part : Document} {steps : Pointer}
    (h : Part schema steps part) :
    part.depth < schema.depth := by
  cases h with
  | @member _ _ members _ _ hmembers hmember =>
      have hinside : part.depth < (Document.object members).depth :=
        Document.depth_lt_of_mem_members hmember
      exact Nat.lt_trans hinside (Document.depth_lt_of_get? hmembers)
  | value _ hvalue => exact Document.depth_lt_of_get? hvalue
  | @item _ items _ _ _ hitems hitem =>
      have hinside : part.depth < (Document.array items).depth :=
        Document.depth_lt_of_mem_items (List.mem_of_getElem? hitem)
      exact Nat.lt_trans hinside (Document.depth_lt_of_get? hitems)

/-- The conversion of a schema stops only where the schema, or a schema inside it, breaks a
rule. -/
theorem failsOnly_compile (scope : Scope) (isTop : Bool) (location : Location)
    (schema : Document) :
    (compile scope isTop location schema).FailsOnly fun fault =>
      ∃ steps problem, fault = .located ⟨location.down steps, problem⟩ ∧
        Faulty scope schema steps problem := by
  induction hdepth : schema.depth using Nat.strongRecOn generalizing schema isTop location with
  | _ depth ih =>
      subst depth
      rw [compile_unfold]
      apply failsOnly_compileBy
      · intro steps problem hbreaks
        exact ⟨steps, problem, rfl, .here hbreaks⟩
      · intro front part hpart
        refine (ih _ hpart.depth_lt false (location.down front) part rfl).mono ?_
        rintro _ ⟨rest, problem, rfl, hfaulty⟩
        refine ⟨front ++ rest, problem, ?_, .inside hpart hfaulty⟩
        rw [Location.down, Location.down, Location.down, List.append_assoc]

end SchemaCodec.Conversion
