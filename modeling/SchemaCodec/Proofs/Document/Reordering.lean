import Mathlib.Data.List.Forall2
import Mathlib.Data.List.Nodup
import SchemaCodec.Proofs.Document.Nesting

namespace SchemaCodec.Document

/-! Schemas that differ in the order of their keywords, at any depth. -/

/-- What the value of a keyword is made of. -/
inductive Content where
  | plain
  | schema
  /-- A schema or a list of schemas. -/
  | items
  | list (content : Content)
  /-- An object that is no schema. -/
  | members (content : String → Content)

namespace Content

def ofLink : String → Content
  | "hrefSchema" | "submissionSchema" | "targetSchema" => .schema
  | "headerSchema" => .members fun _ => .schema
  | _ => .plain

/-- Where schemas stand in a schema. -/
def ofKeyword : String → Content
  | "properties" | "patternProperties" | "definitions" | "dependencies" => .members fun _ => .schema
  | "propertyNames" | "additionalProperties" | "additionalItems" | "contains" | "not" | "if" |
    "then" | "else" => .schema
  | "items" => .items
  | "allOf" | "anyOf" | "oneOf" => .list .schema
  | "links" => .list (.members ofLink)
  | _ => .plain

end Content

/-- The documents differ in the order of keywords alone. Only the members of schemas change places:
neither do the members of other objects, nor the elements of arrays. -/
inductive ReorderedAs : Content → Document → Document → Prop where
  | same {content : Content} {d : Document} : ReorderedAs content d d
  | schema {members others : List (String × Document)}
      (keys : (members.map Prod.fst).Perm (others.map Prod.fst))
      (values : ∀ keyword value other, (keyword, value) ∈ members → (keyword, other) ∈ others →
        ReorderedAs (Content.ofKeyword keyword) value other) :
      ReorderedAs .schema (.object members) (.object others)
  | one {d other : Document} (h : ReorderedAs .schema d other) : ReorderedAs .items d other
  | many {d other : Document} (h : ReorderedAs (.list .schema) d other) :
      ReorderedAs .items d other
  | list {content : Content} {items others : List Document}
      (length : items.length = others.length)
      (each : ∀ item other, (item, other) ∈ items.zip others → ReorderedAs content item other) :
      ReorderedAs (.list content) (.array items) (.array others)
  | members {content : String → Content} {members others : List (String × Document)}
      (keys : members.map Prod.fst = others.map Prod.fst)
      (each : ∀ member other, (member, other) ∈ members.zip others →
        ReorderedAs (content member.1) member.2 other.2) :
      ReorderedAs (.members content) (.object members) (.object others)

/-- The schemas differ in the order of keywords alone, their own and those of schemas inside. -/
def Reordered : Document → Document → Prop :=
  ReorderedAs .schema

/-- Where keys are distinct, any order of a schema's members is a reordering. -/
theorem reordered_of_perm {members others : List (String × Document)}
    (hperm : members.Perm others) (hkeys : (members.map Prod.fst).Nodup) :
    Reordered (.object members) (.object others) := by
  refine .schema (hperm.map Prod.fst) ?_
  intro keyword value other hvalue hother
  have hboth : (keyword, value) = (keyword, other) :=
    List.inj_on_of_nodup_map hkeys hvalue (hperm.mem_iff.mpr hother) rfl
  cases hboth
  exact .same

/-! What is the same in both documents. -/

section

variable {d other : Document}

private theorem ReorderedAs.eq_of_plain (h : ReorderedAs .plain d other) : d = other := by
  cases h
  rfl

theorem Reordered.eq_or_objects (h : d.Reordered other) :
    d = other ∨ ∃ members others, d = .object members ∧ other = .object others := by
  cases h with
  | same => exact .inl rfl
  | schema => exact .inr ⟨_, _, rfl, rfl⟩

theorem ReorderedAs.forall₂_of_list {content : Content}
    (h : ReorderedAs (.list content) d other) :
    d = other ∨ ∃ items others, d = .array items ∧ other = .array others ∧
      List.Forall₂ (ReorderedAs content) items others := by
  cases h with
  | same => exact .inl rfl
  | list length each =>
      exact .inr ⟨_, _, rfl, rfl, List.forall₂_iff_zip.mpr ⟨length, fun hmem => each _ _ hmem⟩⟩

theorem ReorderedAs.forall₂_of_members {content : String → Content}
    (h : ReorderedAs (.members content) d other) :
    d = other ∨ ∃ members others, d = .object members ∧ other = .object others ∧
      List.Forall₂ (fun member entry =>
        member.1 = entry.1 ∧ ReorderedAs (content member.1) member.2 entry.2) members others := by
  cases h with
  | same => exact .inl rfl
  | @members _ members others keys each =>
      refine .inr ⟨_, _, rfl, rfl, ?_⟩
      have hkeys : List.Forall₂ (· = ·) (members.map Prod.fst) (others.map Prod.fst) := by
        rw [List.forall₂_eq_eq_eq]
        exact keys
      rw [List.forall₂_map_left_iff, List.forall₂_map_right_iff] at hkeys
      obtain ⟨hlength, hkey⟩ := List.forall₂_iff_zip.mp hkeys
      exact List.forall₂_iff_zip.mpr ⟨hlength, fun hmem => ⟨hkey hmem, each _ _ hmem⟩⟩

end

section

variable {schema other : Document}

theorem Reordered.keys_perm (h : schema.Reordered other) : schema.keys.Perm other.keys := by
  cases h with
  | same => exact .refl _
  | schema keys _ => exact keys

/-- A keyword stands in both schemas, with values that may be reordered inside, or in none. -/
theorem Reordered.get?_cases (h : schema.Reordered other) (keyword : String) :
    (schema.get? keyword = none ∧ other.get? keyword = none) ∨
    ∃ value found, schema.get? keyword = some value ∧ other.get? keyword = some found ∧
      ReorderedAs (Content.ofKeyword keyword) value found := by
  cases hvalue : schema.get? keyword with
  | none =>
      have hmissing : keyword ∉ other.keys := by
        intro hmem
        obtain ⟨value, hfound⟩ := exists_get?_of_mem_keys (h.keys_perm.mem_iff.mpr hmem)
        cases hvalue.symm.trans hfound
      exact .inl ⟨rfl, get?_eq_none_of_not_mem hmissing⟩
  | some value =>
      have hmem : keyword ∈ other.keys := h.keys_perm.mem_iff.mp (mem_keys_of_get? hvalue)
      obtain ⟨found, hfound⟩ := exists_get?_of_mem_keys hmem
      refine .inr ⟨value, found, rfl, hfound, ?_⟩
      cases h with
      | same =>
          cases hvalue.symm.trans hfound
          exact .same
      | schema _ values =>
          exact values keyword value found (mem_members_of_get? hvalue)
            (mem_members_of_get? hfound)

theorem Reordered.get?_eq (h : schema.Reordered other) (keyword : String)
    (hplain : Content.ofKeyword keyword = .plain) :
    schema.get? keyword = other.get? keyword := by
  rcases h.get?_cases keyword with ⟨hnone, hmissing⟩ | ⟨value, found, hvalue, hfound, hrelated⟩
  · rw [hnone, hmissing]
  · rw [hplain] at hrelated
    rw [hvalue, hfound, hrelated.eq_of_plain]

theorem Reordered.stringAt?_eq (h : schema.Reordered other) (keyword : String)
    (hplain : Content.ofKeyword keyword = .plain) :
    schema.stringAt? keyword = other.stringAt? keyword := by
  rw [stringAt?, stringAt?, h.get?_eq keyword hplain]

theorem Reordered.has_eq (h : schema.Reordered other) (keyword : String) :
    schema.has keyword = other.has keyword := by
  rcases h.get?_cases keyword with ⟨hnone, hmissing⟩ | ⟨value, found, hvalue, hfound, -⟩
  · rw [has, has, hnone, hmissing]
  · rw [has, has, hvalue, hfound]
    rfl

theorem ReorderedAs.isTrue_eq {content : Content} {d other : Document}
    (h : ReorderedAs content d other) : d.isTrue = other.isTrue := by
  induction h with
  | one _ ih | many _ ih => exact ih
  | _ => rfl

theorem ReorderedAs.isFalse_eq {content : Content} {d other : Document}
    (h : ReorderedAs content d other) : d.isFalse = other.isFalse := by
  induction h with
  | one _ ih | many _ ih => exact ih
  | _ => rfl

/-- Tests of values that do not look at members and elements give the same answer. -/
theorem Reordered.any_eq (h : schema.Reordered other) (keyword : String) {test : Document → Bool}
    (htest : ∀ {content d e}, ReorderedAs content d e → test d = test e) :
    (schema.get? keyword).any test = (other.get? keyword).any test := by
  rcases h.get?_cases keyword with ⟨hnone, hmissing⟩ | ⟨value, found, hvalue, hfound, hrelated⟩
  · rw [hnone, hmissing]
  · rw [hvalue, hfound]
    exact htest hrelated

end

end SchemaCodec.Document
