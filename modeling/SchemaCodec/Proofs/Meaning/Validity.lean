import Mathlib.Algebra.Order.Field.Rat
import SchemaCodec.Proofs.Document.Nesting
import SchemaCodec.Proofs.Meaning.Equality

namespace SchemaCodec.Document

/-! The JSON values that a schema validates, by the rules of JSON Schema draft 7. -/

/-- What the rules leave open: where a pattern is found, which texts have a format, and what the
target of a reference validates. -/
structure Rules where
  finds : String → String → Prop
  conforms : String → String → Prop
  refers : String → Document → Prop

/-- The standard reading of a schema is that of the rules. The narrow one asks for more in three
places: the schema of additional properties governs all properties, required properties call for an
object, and a list of item schemas calls for as many items. What must not be validated is read by the
rules in both. -/
inductive Reading where
  | standard
  | narrow
  deriving DecidableEq

/-! Keywords without schemas -/

def HasType (value : Document) (name : String) : Prop :=
  match name with
  | "null" => value = .null
  | "boolean" => ∃ flag, value = .bool flag
  | "number" => ∃ text, value = .number text
  | "integer" => ∃ text, ∃ n : ℤ, value = .number text ∧ Number.value? text = some (n : ℚ)
  | "string" => ∃ text, value = .string text
  | "array" => ∃ items, value = .array items
  | "object" => ∃ members, value = .object members
  | _ => False

def quantity? : Document → Option ℚ
  | .number text => Number.value? text
  | _ => none

def textLength? : Document → Option ℚ
  | .string text => some text.length
  | _ => none

def itemCount? : Document → Option ℚ
  | .array items => some items.length
  | _ => none

def memberCount? : Document → Option ℚ
  | .object members => some members.length
  | _ => none

/-- A measure of the value, if it has one, keeps to the number under a keyword, if there is one. -/
def Limits (schema : Document) (keyword : String) (keeps : ℚ → ℚ → Prop)
    (measure : Option ℚ) : Prop :=
  ∀ limit, schema.get? keyword = some limit → ∀ bound, limit.quantity? = some bound →
    ∀ size, measure = some size → keeps size bound

structure Asserts (rules : Rules) (reading : Reading) (schema value : Document) : Prop where
  type : ∀ type, schema.get? "type" = some type →
    ∃ name, .string name ∈ type.oneOrMany ∧ value.HasType name
  enum : ∀ list, schema.get? "enum" = some list → ∃ item ∈ list.items, item.Same value
  const : ∀ item, schema.get? "const" = some item → item.Same value
  multipleOf : schema.Limits "multipleOf" (fun size bound => ∃ n : ℤ, size = n * bound)
    value.quantity?
  maximum : schema.Limits "maximum" (· ≤ ·) value.quantity?
  exclusiveMaximum : schema.Limits "exclusiveMaximum" (· < ·) value.quantity?
  minimum : schema.Limits "minimum" (· ≥ ·) value.quantity?
  exclusiveMinimum : schema.Limits "exclusiveMinimum" (· > ·) value.quantity?
  maxLength : schema.Limits "maxLength" (· ≤ ·) value.textLength?
  minLength : schema.Limits "minLength" (· ≥ ·) value.textLength?
  pattern : ∀ pattern text, schema.get? "pattern" = some (.string pattern) →
    value = .string text → rules.finds pattern text
  format : ∀ format text, schema.get? "format" = some (.string format) →
    value = .string text → rules.conforms format text
  maxItems : schema.Limits "maxItems" (· ≤ ·) value.itemCount?
  minItems : schema.Limits "minItems" (· ≥ ·) value.itemCount?
  uniqueItems : ∀ items, schema.get? "uniqueItems" = some (.bool true) → value = .array items →
    items.Pairwise fun first second => ¬ first.Same second
  places : reading = .narrow → ∀ schemas items, schema.get? "items" = some (.array schemas) →
    value = .array items → schemas.length ≤ items.length
  maxProperties : schema.Limits "maxProperties" (· ≤ ·) value.memberCount?
  minProperties : schema.Limits "minProperties" (· ≥ ·) value.memberCount?
  required : ∀ list, schema.get? "required" = some list →
    (reading = .narrow → ∃ members, value = .object members) ∧
      ∀ members, value = .object members → ∀ key, .string key ∈ list.items → value.has key
  dependencies : ∀ map key keys, schema.get? "dependencies" = some map →
    (key, .array keys) ∈ map.members → value.has key →
    ∀ other, .string other ∈ keys → value.has other

/-! Keywords with schemas -/

/-- A property has a schema of its own, by name or by pattern. -/
def Declares (rules : Rules) (schema : Document) (key : String) : Prop :=
  (∃ map part, schema.get? "properties" = some map ∧ (key, part) ∈ map.members) ∨
    ∃ map pattern part, schema.get? "patternProperties" = some map ∧
      (pattern, part) ∈ map.members ∧ rules.finds pattern key

/-- A schema inside of a schema must validate a piece of the value. -/
inductive Applies (rules : Rules) (reading : Reading) (schema value : Document) :
    Document → Document → Prop
  | property {map : Document} {key : String} {part piece : Document}
      (hmap : schema.get? "properties" = some map) (hpart : (key, part) ∈ map.members)
      (hpiece : value.get? key = some piece) : Applies rules reading schema value part piece
  | patternProperty {map : Document} {pattern key : String} {part piece : Document}
      (hmap : schema.get? "patternProperties" = some map) (hpart : (pattern, part) ∈ map.members)
      (hfinds : rules.finds pattern key) (hpiece : (key, piece) ∈ value.members) :
      Applies rules reading schema value part piece
  | additionalProperty {key : String} {part piece : Document}
      (hpart : schema.get? "additionalProperties" = some part)
      (hkey : ¬ schema.Declares rules key ∨ reading = .narrow ∧ part ≠ .bool false)
      (hpiece : (key, piece) ∈ value.members) : Applies rules reading schema value part piece
  | propertyName {key : String} {part piece : Document}
      (hpart : schema.get? "propertyNames" = some part)
      (hpiece : (key, piece) ∈ value.members) :
      Applies rules reading schema value part (.string key)
  | dependency {map : Document} {key : String} {part : Document}
      (hmap : schema.get? "dependencies" = some map) (hpart : (key, part) ∈ map.members)
      (hschema : ∀ keys, part ≠ .array keys) (hkey : value.has key) :
      Applies rules reading schema value part value
  | item {part piece : Document} {items : List Document}
      (hpart : schema.get? "items" = some part) (hschema : ∀ schemas, part ≠ .array schemas)
      (hitems : value = .array items) (hpiece : piece ∈ items) :
      Applies rules reading schema value part piece
  | itemAt {schemas items : List Document} {part piece : Document}
      (hschemas : schema.get? "items" = some (.array schemas)) (hitems : value = .array items)
      (hpiece : (part, piece) ∈ schemas.zip items) : Applies rules reading schema value part piece
  | additionalItem {schemas items : List Document} {part piece : Document}
      (hschemas : schema.get? "items" = some (.array schemas))
      (hpart : schema.get? "additionalItems" = some part) (hitems : value = .array items)
      (hpiece : piece ∈ items.drop schemas.length) : Applies rules reading schema value part piece
  | allOf {list part : Document} (hlist : schema.get? "allOf" = some list)
      (hpart : part ∈ list.items) : Applies rules reading schema value part value

private theorem depth_lt_of_applies {rules : Rules} {reading : Reading}
    {schema value part piece : Document} (h : schema.Applies rules reading value part piece) :
    part.depth < schema.depth := by
  cases h with
  | property hmap hpart =>
      exact Nat.lt_trans (depth_lt_of_mem_members hpart) (depth_lt_of_get? hmap)
  | patternProperty hmap hpart =>
      exact Nat.lt_trans (depth_lt_of_mem_members hpart) (depth_lt_of_get? hmap)
  | additionalProperty hpart => exact depth_lt_of_get? hpart
  | propertyName hpart => exact depth_lt_of_get? hpart
  | dependency hmap hpart =>
      exact Nat.lt_trans (depth_lt_of_mem_members hpart) (depth_lt_of_get? hmap)
  | item hpart => exact depth_lt_of_get? hpart
  | itemAt hschemas hitems hpiece =>
      have hpart : part ∈ (Document.array _).items := (List.of_mem_zip hpiece).1
      exact Nat.lt_trans (depth_lt_of_mem_items hpart) (depth_lt_of_get? hschemas)
  | additionalItem hschemas hpart => exact depth_lt_of_get? hpart
  | allOf hlist hpart => exact Nat.lt_trans (depth_lt_of_mem_items hpart) (depth_lt_of_get? hlist)

private theorem depth_lt_of_listed {schema list part : Document} {keyword : String}
    (hlist : schema.get? keyword = some list) (hpart : part ∈ list.items) :
    part.depth < schema.depth :=
  Nat.lt_trans (depth_lt_of_mem_items hpart) (depth_lt_of_get? hlist)

/-- The schema validates the value. -/
def Validates (rules : Rules) (reading : Reading) (schema value : Document) : Prop :=
  schema = .bool true ∨
    schema.isObject = true ∧
      match schema.stringAt? "$ref" with
      | some text => rules.refers text value
      | none =>
        schema.Asserts rules reading value ∧
        (∀ part piece (_ : schema.Applies rules reading value part piece),
          Validates rules reading part piece) ∧
        (∀ list (_ : schema.get? "anyOf" = some list),
          ∃ part, ∃ _ : part ∈ list.items, Validates rules reading part value) ∧
        (∀ list (_ : schema.get? "oneOf" = some list), ∃ index : Fin list.items.length,
          Validates rules reading (list.items.get index) value ∧
            ∀ other, Validates rules .standard (list.items.get other) value → other = index) ∧
        (∀ part (_ : schema.get? "not" = some part), ¬ Validates rules .standard part value) ∧
        (∀ part (_ : schema.get? "contains" = some part) items, value = .array items →
          ∃ item ∈ items, Validates rules reading part item) ∧
        ∀ condition (_ : schema.get? "if" = some condition),
          (Validates rules .standard condition value →
            ∀ part (_ : schema.get? "then" = some part), Validates rules reading part value) ∧
          (¬ Validates rules .standard condition value →
            ∀ part (_ : schema.get? "else" = some part), Validates rules reading part value)
termination_by schema.depth
decreasing_by
  · exact depth_lt_of_applies ‹_›
  · exact depth_lt_of_listed ‹_› ‹_›
  · exact depth_lt_of_listed ‹_› (List.get_mem ..)
  · exact depth_lt_of_listed ‹_› (List.get_mem ..)
  · exact depth_lt_of_get? ‹_›
  · exact depth_lt_of_get? ‹_›
  · exact depth_lt_of_get? ‹_›
  · exact depth_lt_of_get? ‹schema.get? "then" = _›
  · exact depth_lt_of_get? ‹schema.get? "else" = _›

section

variable {rules : Rules} {reading : Reading} {value : Document}

@[simp] theorem validates_bool {accepts : Bool} :
    (Document.bool accepts).Validates rules reading value ↔ accepts = true := by
  rw [Validates]
  simp [isObject, kind]

/-- What an object validates that is no reference. -/
structure Follows (rules : Rules) (reading : Reading) (schema value : Document) : Prop where
  asserts : schema.Asserts rules reading value
  applies : ∀ part piece, schema.Applies rules reading value part piece →
    part.Validates rules reading piece
  anyOf : ∀ list, schema.get? "anyOf" = some list →
    ∃ part ∈ list.items, part.Validates rules reading value
  oneOf : ∀ list, schema.get? "oneOf" = some list → ∃ index : Fin list.items.length,
    (list.items.get index).Validates rules reading value ∧
      ∀ other, (list.items.get other).Validates rules .standard value → other = index
  not : ∀ part, schema.get? "not" = some part → ¬ part.Validates rules .standard value
  contains : ∀ part, schema.get? "contains" = some part → ∀ items, value = .array items →
    ∃ item ∈ items, part.Validates rules reading item
  conditional : ∀ condition, schema.get? "if" = some condition →
    (condition.Validates rules .standard value →
      ∀ part, schema.get? "then" = some part → part.Validates rules reading value) ∧
    (¬ condition.Validates rules .standard value →
      ∀ part, schema.get? "else" = some part → part.Validates rules reading value)

theorem validates_object_iff {members : List (String × Document)}
    (href : (Document.object members).get? "$ref" = none) :
    (Document.object members).Validates rules reading value ↔
      (Document.object members).Follows rules reading value := by
  have htext : (Document.object members).stringAt? "$ref" = none := by
    simp [stringAt?, href]
  rw [Validates, htext]
  simp only [isObject, kind, BEq.rfl, reduceCtorEq, true_and, false_or, exists_prop]
  constructor
  · intro h
    obtain ⟨asserts, applies, anyOf, oneOf, not, contains, conditional⟩ := h
    exact ⟨asserts, applies, anyOf, oneOf, not, contains, conditional⟩
  · intro h
    exact ⟨h.asserts, h.applies, h.anyOf, h.oneOf, h.not, h.contains, h.conditional⟩

/-! Schemas with few keywords -/

private theorem limits_of_absent {schema : Document} {keyword : String} {keeps : ℚ → ℚ → Prop}
    {measure : Option ℚ} (h : schema.get? keyword = none) :
    schema.Limits keyword keeps measure := by
  intro limit hlimit
  rw [h] at hlimit
  cases hlimit

def limitKeywords : List String :=
  ["multipleOf", "maximum", "exclusiveMaximum", "minimum", "exclusiveMinimum", "maxLength",
    "minLength", "pattern", "format", "maxItems", "minItems", "uniqueItems", "maxProperties",
    "minProperties", "dependencies"]

theorem asserts_of_unlimited {schema : Document}
    (h : ∀ keyword ∈ limitKeywords, schema.get? keyword = none)
    (htype : ∀ type, schema.get? "type" = some type →
      ∃ name, .string name ∈ type.oneOrMany ∧ value.HasType name)
    (henum : ∀ list, schema.get? "enum" = some list → ∃ item ∈ list.items, item.Same value)
    (hconst : ∀ item, schema.get? "const" = some item → item.Same value)
    (hrequired : ∀ list, schema.get? "required" = some list → ∀ members,
      value = .object members → ∀ key, .string key ∈ list.items → value.has key) :
    schema.Asserts rules .standard value where
  type := htype
  enum := henum
  const := hconst
  multipleOf := limits_of_absent (h _ (by decide))
  maximum := limits_of_absent (h _ (by decide))
  exclusiveMaximum := limits_of_absent (h _ (by decide))
  minimum := limits_of_absent (h _ (by decide))
  exclusiveMinimum := limits_of_absent (h _ (by decide))
  maxLength := limits_of_absent (h _ (by decide))
  minLength := limits_of_absent (h _ (by decide))
  pattern := by simp [h "pattern" (by decide)]
  format := by simp [h "format" (by decide)]
  maxItems := limits_of_absent (h _ (by decide))
  minItems := limits_of_absent (h _ (by decide))
  uniqueItems := by simp [h "uniqueItems" (by decide)]
  places := nofun
  maxProperties := limits_of_absent (h _ (by decide))
  minProperties := limits_of_absent (h _ (by decide))
  required := fun list hlist => ⟨nofun, hrequired list hlist⟩
  dependencies := by simp [h "dependencies" (by decide)]

theorem follows_of_unconditional {schema : Document}
    (h : ∀ keyword ∈ ["oneOf", "not", "contains", "if"], schema.get? keyword = none)
    (hasserts : schema.Asserts rules reading value)
    (happlies : ∀ part piece, schema.Applies rules reading value part piece →
      part.Validates rules reading piece)
    (hany : ∀ list, schema.get? "anyOf" = some list →
      ∃ part ∈ list.items, part.Validates rules reading value) :
    schema.Follows rules reading value where
  asserts := hasserts
  applies := happlies
  anyOf := hany
  oneOf := by simp [h "oneOf" (by decide)]
  not := by simp [h "not" (by decide)]
  contains := by simp [h "contains" (by decide)]
  conditional := by simp [h "if" (by decide)]

/-! Both readings keep the rules. -/

theorem Asserts.standard {schema : Document} (h : schema.Asserts rules reading value) :
    schema.Asserts rules .standard value := by
  refine { h with places := ?_, required := ?_ }
  · intro hreading
    cases hreading
  · intro list hlist
    refine ⟨?_, (h.required list hlist).2⟩
    intro hreading
    cases hreading

private theorem Applies.of_standard {schema part piece : Document}
    (h : schema.Applies rules .standard value part piece) :
    schema.Applies rules reading value part piece := by
  cases h with
  | property hmap hpart hpiece => exact .property hmap hpart hpiece
  | patternProperty hmap hpart hfinds hpiece => exact .patternProperty hmap hpart hfinds hpiece
  | additionalProperty hpart hkey hpiece =>
      rcases hkey with hkey | ⟨hreading, -⟩
      · exact .additionalProperty hpart (.inl hkey) hpiece
      · cases hreading
  | propertyName hpart hpiece => exact .propertyName hpart hpiece
  | dependency hmap hpart hschema hkey => exact .dependency hmap hpart hschema hkey
  | item hpart hschema hitems hpiece => exact .item hpart hschema hitems hpiece
  | itemAt hschemas hitems hpiece => exact .itemAt hschemas hitems hpiece
  | additionalItem hschemas hpart hitems hpiece =>
      exact .additionalItem hschemas hpart hitems hpiece
  | allOf hlist hpart => exact .allOf hlist hpart

theorem Validates.standard {schema : Document} (h : schema.Validates rules reading value) :
    schema.Validates rules .standard value := by
  induction hdepth : schema.depth using Nat.strong_induction_on generalizing schema value with
  | _ depth ih =>
      subst depth
      rw [Validates] at h ⊢
      rcases h with htrue | ⟨hobject, h⟩
      · exact .inl htrue
      · refine .inr ⟨hobject, ?_⟩
        cases htext : schema.stringAt? "$ref" with
        | some text =>
            simp only [htext] at h
            exact h
        | none =>
            simp only [htext] at h ⊢
            obtain ⟨asserts, applies, anyOf, oneOf, not, contains, conditional⟩ := h
            -- What must not hold is read by the standard already, so it carries over as it is.
            refine ⟨asserts.standard, ?_, ?_, ?_, not, ?_, ?_⟩
            · intro part piece happlies
              exact ih _ (depth_lt_of_applies happlies) (applies part piece happlies.of_standard)
                rfl
            · intro list hlist
              obtain ⟨part, hpart, hvalid⟩ := anyOf list hlist
              exact ⟨part, hpart, ih _ (depth_lt_of_listed hlist hpart) hvalid rfl⟩
            · intro list hlist
              obtain ⟨index, hvalid, hunique⟩ := oneOf list hlist
              refine ⟨index, ?_, hunique⟩
              exact ih _ (depth_lt_of_listed hlist (List.get_mem ..)) hvalid rfl
            · intro part hpart items hitems
              obtain ⟨item, hitem, hvalid⟩ := contains part hpart items hitems
              exact ⟨item, hitem, ih _ (depth_lt_of_get? hpart) hvalid rfl⟩
            · intro condition hcondition
              obtain ⟨hthen, helse⟩ := conditional condition hcondition
              constructor
              · intro hholds part hpart
                exact ih _ (depth_lt_of_get? hpart) (hthen hholds part hpart) rfl
              · intro hfails part hpart
                exact ih _ (depth_lt_of_get? hpart) (helse hfails part hpart) rfl

end

end SchemaCodec.Document
