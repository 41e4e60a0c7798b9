import Mathlib.Logic.Relation
import SchemaCodec.Conversion.Compile

namespace SchemaCodec.Document

/-! The schemas inside of a schema, and the positions that a conversion gets to. -/

def schemasIn (schema : Document) (keyword : String) : List Document :=
  ((schema.get? keyword).elim [] members).map Prod.snd

def schemasOf (schema : Document) (keyword : String) : List Document :=
  (schema.get? keyword).elim [] items

/-- The elements of an array; any other document stands for itself. -/
def oneOrMany : Document → List Document
  | .array items => items
  | single => [single]

/-- The schemas one level below a schema. What stands beside a reference does not count. -/
def subschemas (schema : Document) : List Document :=
  if schema.has "$ref" then []
  else
    schema.schemasIn "properties" ++ (schema.get? "propertyNames").toList ++
      schema.schemasIn "patternProperties" ++ (schema.get? "additionalProperties").toList ++
      (schema.get? "items").elim [] oneOrMany ++ schema.schemasOf "allOf" ++
      schema.schemasOf "anyOf" ++ schema.schemasOf "oneOf"

def Reaches : Document → Document → Prop :=
  Relation.ReflTransGen fun schema part => part ∈ schema.subschemas

theorem Reaches.refl (schema : Document) : schema.Reaches schema :=
  Relation.ReflTransGen.refl

theorem Reaches.head {schema part position : Document}
    (hpart : part ∈ schema.subschemas) (hposition : part.Reaches position) :
    schema.Reaches position :=
  Relation.ReflTransGen.head hpart hposition

theorem Reaches.cases_head {schema position : Document} (h : schema.Reaches position) :
    position = schema ∨ ∃ part ∈ schema.subschemas, part.Reaches position := by
  rcases Relation.ReflTransGen.cases_head h with rfl | ⟨part, hpart, hposition⟩
  · exact .inl rfl
  · exact .inr ⟨part, hpart, hposition⟩

theorem reaches_bool {accepts : Bool} {position : Document}
    (h : (Document.bool accepts).Reaches position) : position = .bool accepts := by
  rcases h.cases_head with heq | ⟨part, hpart, -⟩
  · exact heq
  · cases hpart

/-- A property holds of a schema and of all schemas below it. -/
def Everywhere (property : Document → Prop) (schema : Document) : Prop :=
  ∀ position, schema.Reaches position → property position

theorem Everywhere.here {property : Document → Prop} {schema : Document}
    (h : schema.Everywhere property) : property schema :=
  h schema (.refl schema)

theorem Everywhere.below {property : Document → Prop} {schema part : Document}
    (h : schema.Everywhere property) (hpart : part ∈ schema.subschemas) :
    part.Everywhere property :=
  fun position hposition => h position (.head hpart hposition)

private theorem everywhere_iff {property : Document → Prop} {schema : Document} :
    schema.Everywhere property ↔
      property schema ∧ ∀ part ∈ schema.subschemas, part.Everywhere property := by
  constructor
  · intro h
    exact ⟨h.here, fun part hpart => h.below hpart⟩
  · intro h position hposition
    obtain ⟨hhere, hbelow⟩ := h
    rcases hposition.cases_head with rfl | ⟨part, hpart, hreaches⟩
    · exact hhere
    · exact hbelow part hpart position hreaches

/-! Members -/

theorem mem_members_of_get? {d value : Document} {key : String}
    (h : d.get? key = some value) : (key, value) ∈ d.members := by
  obtain ⟨before, after, hmembers, -⟩ := List.lookup_eq_some_iff.mp h
  rw [hmembers]
  simp

theorem mem_keys_of_get? {d value : Document} {key : String}
    (h : d.get? key = some value) : key ∈ d.keys :=
  List.mem_map_of_mem (f := Prod.fst) (mem_members_of_get? h)

theorem get?_eq_none_of_not_mem {d : Document} {key : String} (h : key ∉ d.keys) :
    d.get? key = none := by
  cases hget : d.get? key with
  | none => rfl
  | some value => exact absurd (mem_keys_of_get? hget) h

theorem exists_get?_of_mem_keys {d : Document} {key : String} (h : key ∈ d.keys) :
    ∃ value, d.get? key = some value := by
  obtain ⟨⟨found, value⟩, hmember, hfound⟩ := List.mem_map.mp h
  simp only at hfound
  subst found
  rw [← Option.isSome_iff_exists]
  apply List.lookup_isSome_iff.mpr
  exact ⟨(key, value), hmember, beq_self_eq_true key⟩

theorem has_eq_true_iff {d : Document} {key : String} :
    d.has key = true ↔ ∃ value, d.get? key = some value :=
  Option.isSome_iff_exists

theorem has_eq_false_iff {d : Document} {key : String} :
    d.has key = false ↔ d.get? key = none := by
  simp [has]

theorem stringAt?_eq_some_iff {d : Document} {key text : String} :
    d.stringAt? key = some text ↔ d.get? key = some (.string text) := by
  unfold stringAt?
  cases d.get? key with
  | none => simp
  | some value =>
      cases value <;> simp [string?]

theorem falseAt_eq_true_iff {d : Document} {key : String} :
    d.falseAt key = true ↔ d.get? key = some (.bool false) := by
  unfold falseAt
  cases d.get? key with
  | none => simp
  | some value =>
      cases value <;> simp [isFalse]

/-! Depth -/

private theorem depth_le_depthOfItems {item : Document} {items : List Document}
    (h : item ∈ items) : item.depth ≤ depthOfItems items := by
  induction items with
  | nil => simp at h
  | cons first rest ih =>
      rw [depthOfItems]
      rcases List.mem_cons.mp h with rfl | hrest
      · omega
      · have := ih hrest
        omega

private theorem depth_le_depthOfMembers {key : String} {value : Document}
    {members : List (String × Document)} (h : (key, value) ∈ members) :
    value.depth ≤ depthOfMembers members := by
  induction members with
  | nil => simp at h
  | cons first rest ih =>
      obtain ⟨other, found⟩ := first
      rw [depthOfMembers]
      rcases List.mem_cons.mp h with heq | hrest
      · cases heq
        omega
      · have := ih hrest
        omega

theorem depth_lt_of_mem_items {d item : Document} (h : item ∈ d.items) :
    item.depth < d.depth := by
  cases d with
  | array items => exact Nat.lt_succ_of_le (depth_le_depthOfItems h)
  | _ => simp [items] at h

theorem depth_lt_of_mem_members {d value : Document} {key : String}
    (h : (key, value) ∈ d.members) : value.depth < d.depth := by
  cases d with
  | object members => exact Nat.lt_succ_of_le (depth_le_depthOfMembers h)
  | _ => simp [members] at h

theorem depth_lt_of_get? {d value : Document} {key : String}
    (h : d.get? key = some value) : value.depth < d.depth :=
  depth_lt_of_mem_members (mem_members_of_get? h)

theorem mem_schemasIn {schema part : Document} {keyword : String} :
    part ∈ schema.schemasIn keyword ↔
      ∃ map name, schema.get? keyword = some map ∧ (name, part) ∈ map.members := by
  unfold schemasIn
  cases schema.get? keyword <;> simp

theorem mem_schemasOf {schema part : Document} {keyword : String} :
    part ∈ schema.schemasOf keyword ↔
      ∃ list, schema.get? keyword = some list ∧ part ∈ list.items := by
  unfold schemasOf
  cases schema.get? keyword <;> simp

private theorem depth_lt_of_mem_schemasIn {schema part : Document} {keyword : String}
    (h : part ∈ schema.schemasIn keyword) : part.depth < schema.depth := by
  obtain ⟨map, name, hmap, hmember⟩ := mem_schemasIn.mp h
  exact Nat.lt_trans (depth_lt_of_mem_members hmember) (depth_lt_of_get? hmap)

private theorem depth_lt_of_mem_schemasOf {schema part : Document} {keyword : String}
    (h : part ∈ schema.schemasOf keyword) : part.depth < schema.depth := by
  obtain ⟨list, hlist, hitem⟩ := mem_schemasOf.mp h
  exact Nat.lt_trans (depth_lt_of_mem_items hitem) (depth_lt_of_get? hlist)

private theorem depth_le_of_mem_oneOrMany {schema part : Document}
    (h : part ∈ schema.oneOrMany) : part.depth ≤ schema.depth := by
  cases schema with
  | array schemas => exact Nat.le_of_lt (depth_lt_of_mem_items (d := .array schemas) h)
  | _ => exact Nat.le_of_eq (congrArg depth (List.mem_singleton.mp h))

/-! Where the schemas below a schema stand -/

section

variable {schema part : Document}

theorem mem_subschemas (href : schema.get? "$ref" = none) :
    part ∈ schema.subschemas ↔
      part ∈ schema.schemasIn "properties" ∨ schema.get? "propertyNames" = some part ∨
      part ∈ schema.schemasIn "patternProperties" ∨
      schema.get? "additionalProperties" = some part ∨
      (∃ items, schema.get? "items" = some items ∧ part ∈ items.oneOrMany) ∨
      part ∈ schema.schemasOf "allOf" ∨ part ∈ schema.schemasOf "anyOf" ∨
      part ∈ schema.schemasOf "oneOf" := by
  have hitems : part ∈ (schema.get? "items").elim [] oneOrMany ↔
      ∃ items, schema.get? "items" = some items ∧ part ∈ items.oneOrMany := by
    cases schema.get? "items" <;> simp
  have hhas : ¬ schema.has "$ref" = true := by
    simp [has, href]
  rw [subschemas, if_neg hhas]
  simp only [List.mem_append, Option.mem_toList, hitems, or_assoc]

theorem mem_subschemas_of_map {keyword name : String} {map : Document}
    (href : schema.get? "$ref" = none)
    (hkeyword : keyword = "properties" ∨ keyword = "patternProperties")
    (hmap : schema.get? keyword = some map) (hpart : (name, part) ∈ map.members) :
    part ∈ schema.subschemas := by
  have hin : part ∈ schema.schemasIn keyword := mem_schemasIn.mpr ⟨map, name, hmap, hpart⟩
  rw [mem_subschemas href]
  rcases hkeyword with rfl | rfl
  · exact .inl hin
  · exact .inr (.inr (.inl hin))

theorem mem_subschemas_of_value {keyword : String} (href : schema.get? "$ref" = none)
    (hkeyword : keyword = "propertyNames" ∨ keyword = "additionalProperties")
    (hpart : schema.get? keyword = some part) : part ∈ schema.subschemas := by
  rw [mem_subschemas href]
  rcases hkeyword with rfl | rfl
  · exact .inr (.inl hpart)
  · exact .inr (.inr (.inr (.inl hpart)))

theorem mem_subschemas_of_items {items : Document} (href : schema.get? "$ref" = none)
    (hitems : schema.get? "items" = some items) (hpart : part ∈ items.oneOrMany) :
    part ∈ schema.subschemas := by
  rw [mem_subschemas href]
  exact .inr (.inr (.inr (.inr (.inl ⟨items, hitems, hpart⟩))))

theorem mem_subschemas_of_item (href : schema.get? "$ref" = none)
    (hpart : schema.get? "items" = some part) (hlist : ∀ schemas, part ≠ .array schemas) :
    part ∈ schema.subschemas := by
  apply mem_subschemas_of_items href hpart
  cases part with
  | array schemas => exact absurd rfl (hlist schemas)
  | _ => exact List.mem_singleton_self _

theorem mem_subschemas_of_list {keyword : String} {list : Document}
    (href : schema.get? "$ref" = none)
    (hkeyword : keyword = "allOf" ∨ keyword = "anyOf" ∨ keyword = "oneOf")
    (hlist : schema.get? keyword = some list) (hpart : part ∈ list.items) :
    part ∈ schema.subschemas := by
  have hof : part ∈ schema.schemasOf keyword := mem_schemasOf.mpr ⟨list, hlist, hpart⟩
  rw [mem_subschemas href]
  rcases hkeyword with rfl | rfl | rfl
  · exact .inr (.inr (.inr (.inr (.inr (.inl hof)))))
  · exact .inr (.inr (.inr (.inr (.inr (.inr (.inl hof))))))
  · exact .inr (.inr (.inr (.inr (.inr (.inr (.inr hof))))))

end

theorem depth_lt_of_mem_subschemas {schema part : Document}
    (h : part ∈ schema.subschemas) : part.depth < schema.depth := by
  cases href : schema.get? "$ref" with
  | some target => simp [subschemas, has, href] at h
  | none =>
      rcases (mem_subschemas href).mp h with
        h | h | h | h | ⟨items, hitems, h⟩ | h | h | h
      · exact depth_lt_of_mem_schemasIn h
      · exact depth_lt_of_get? h
      · exact depth_lt_of_mem_schemasIn h
      · exact depth_lt_of_get? h
      · exact Nat.lt_of_le_of_lt (depth_le_of_mem_oneOrMany h) (depth_lt_of_get? hitems)
      · exact depth_lt_of_mem_schemasOf h
      · exact depth_lt_of_mem_schemasOf h
      · exact depth_lt_of_mem_schemasOf h

/-- Induction from the schemas below a schema to the schema. -/
@[elab_as_elim]
theorem subschemas_induction {motive : Document → Prop}
    (step : ∀ schema, (∀ part ∈ schema.subschemas, motive part) → motive schema)
    (schema : Document) : motive schema := by
  induction hdepth : schema.depth using Nat.strongRecOn generalizing schema with
  | _ depth ih =>
      subst depth
      apply step
      intro part hpart
      exact ih _ (depth_lt_of_mem_subschemas hpart) part rfl

/-! Properties that hold everywhere can be tested. -/

def holdsWithin (property : Document → Prop) [DecidablePred property] :
    Nat → Document → Bool
  | 0, _ => true
  | fuel + 1, schema =>
    decide (property schema) && schema.subschemas.all (holdsWithin property fuel)

private theorem holdsWithin_iff {property : Document → Prop} [DecidablePred property] {fuel : Nat}
    {schema : Document} (hfuel : schema.depth < fuel) :
    holdsWithin property fuel schema = true ↔ schema.Everywhere property := by
  induction fuel generalizing schema with
  | zero => omega
  | succ fuel ih =>
      rw [holdsWithin, everywhere_iff, Bool.and_eq_true, decide_eq_true_iff, List.all_eq_true]
      apply and_congr_right
      intro _
      apply forall₂_congr
      intro part hpart
      have hdepth := depth_lt_of_mem_subschemas hpart
      exact ih (by omega)

instance (property : Document → Prop) [DecidablePred property] (schema : Document) :
    Decidable (schema.Everywhere property) :=
  decidable_of_iff _ (holdsWithin_iff (Nat.lt_succ_self schema.depth))

end SchemaCodec.Document
