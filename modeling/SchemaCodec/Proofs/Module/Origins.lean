import Mathlib.Data.List.Perm.Basic
import SchemaCodec.Proofs.Module.Generation
import SchemaCodec.Proofs.Order.Walk

namespace SchemaCodec

/-! Where the definitions of a module come from: the schemas of a document that each of them stands
for, and where they are. -/

/-- A schema that a definition is made of. A heading takes the place of the schema's own title and
description. -/
structure Origin where
  name : String
  location : Location
  schema : Document
  heading : Option (String × String)

namespace Origin

/-- What is known about the definition if the schema says the given. -/
def headed (origin : Origin) (metadata : Metadata) : Metadata :=
  match origin.heading with
  | some (title, description) =>
    { metadata with title := some title, description := some description }
  | none => metadata

/-- The definition has the codec of the schema and what the schema says beside it. -/
structure Defines (scope : Scope) (origin : Origin) (definition : Definition) : Prop where
  declaration : ∃ inner condition,
    (Conversion.compile scope true origin.location origin.schema).result = .ok inner ∧
      definition.declaration = .plain origin.name (.brand inner condition origin.name)
  metadata : ∃ extracted, Metadata.ofSchema origin.location origin.schema = .ok extracted ∧
    definition.metadata = origin.headed extracted

theorem Defines.name {scope : Scope} {origin : Origin} {definition : Definition}
    (h : origin.Defines scope definition) : definition.name = origin.name := by
  obtain ⟨inner, condition, -, hdeclaration⟩ := h.declaration
  rw [Definition.name, hdeclaration]
  rfl

end Origin

namespace Conversion

variable {allowed : Event → Prop} {scope : Scope} {location : Location} {schema : Document}
  {name : String}

private theorem exists_of_brand {inner codec : Codec}
    (h : (brand name inner schema).Gives allowed codec) :
    ∃ condition, codec = .brand inner condition name := by
  simp only [brand, gives_bind, gives_return] at h
  obtain ⟨condition, -, rfl⟩ := h
  exact ⟨condition, rfl⟩

/-- A reference object that is a definition has the codec it would have below one. -/
theorem compile_reference {text : String} {inner : Codec}
    (href : schema.get? "$ref" = some (.string text))
    (h : (fromReference scope location schema text).Gives allowed inner) :
    (compile scope true location schema).result = .ok inner := by
  cases schema with
  | object members =>
      apply gives_anything_iff.mp
      rw [gives_compile_reference href]
      refine ⟨?_, text, rfl, gives_anything_iff.mpr h.result⟩
      rw [gives_reportKeywords]
      exact ⟨fun _ _ _ => trivial, fun _ _ => trivial⟩
  | _ => cases href

private theorem exists_of_definitionCodec {codec : Codec}
    (h : (definitionCodec scope location name schema).Gives allowed codec) :
    ∃ inner condition, (compile scope true location schema).result = .ok inner ∧
      codec = .brand inner condition name := by
  unfold definitionCodec at h
  split at h
  · simp only [gives_bind, gives_return] at h
    obtain ⟨inner, hinner, rfl⟩ := h
    exact ⟨inner, _, hinner.result, rfl⟩
  · simp only [gives_bind, gives_referenceAt] at h
    obtain ⟨reference, hreference, h⟩ := h
    cases reference with
    | some text =>
        simp only [gives_bind, gives_return] at h
        obtain ⟨inner, hinner, rfl⟩ := h
        exact ⟨inner, _, compile_reference hreference hinner, rfl⟩
    | none =>
        simp only [gives_bind] at h
        obtain ⟨inner, hinner, hbrand⟩ := h
        obtain ⟨condition, rfl⟩ := exists_of_brand hbrand
        exact ⟨inner, condition, hinner.result, rfl⟩

private theorem defines_define {definition : Definition}
    (h : (define scope location name schema).Gives allowed definition) :
    Origin.Defines scope ⟨name, location, schema, none⟩ definition := by
  simp only [define, gives_bind, gives_return, gives_record, gives_ofExcept] at h
  obtain ⟨metadata, hmetadata, codec, hcodec, -, -, rfl⟩ := h
  obtain ⟨inner, condition, hinner, rfl⟩ := exists_of_definitionCodec hcodec
  exact ⟨⟨inner, condition, hinner, rfl⟩, metadata, hmetadata, rfl⟩

private theorem defines_defineRoot {definition : Definition}
    (h : (defineRoot scope name schema).Gives faultless definition) :
    Origin.Defines scope ⟨name, .root, schema, some (name, rootDescription)⟩ definition := by
  simp only [defineRoot, gives_bind, gives_return, gives_record, gives_ofExcept] at h
  obtain ⟨metadata, hmetadata, inner, hinner, codec, hbrand, -, -, rfl⟩ := h
  obtain ⟨condition, rfl⟩ := exists_of_brand hbrand
  refine ⟨⟨inner, condition, ?_, rfl⟩, metadata, hmetadata, rfl⟩
  simp only [rootCodec, gives_bind, gives_referenceAt] at hinner
  obtain ⟨reference, -, hinner⟩ := hinner
  cases reference with
  | some text =>
      -- A root that is a reference is an error.
      simp only [errorCodec, gives_bind, gives_report] at hinner
      obtain ⟨-, herror, -⟩ := hinner
      exact absurd herror not_faultless_error
  | none => exact hinner.result

end Conversion

namespace Link

open Conversion

variable {allowed : Event → Prop} {scope : Scope}

/-- The origin of a part of an endpoint. No definition is made of a part without a schema. -/
def origin (index : Nat) (part : Section) : Origin where
  name := "_links_" ++ relation ++ "_" ++ part.suffix
  location := Location.root.down ["links", toString index, part.key]
  schema := part.schema.toOption.getD .null
  heading := part.heading

/-- Only one implementation can be described. -/
def originsOf (links : List Document) : List Origin :=
  match implementations links with
  | [(link, index)] => (sections Template.check index link).map (origin index)
  | _ => []

private theorem defines_section {index : Nat} {part : Section} {definition : Definition}
    (h : (define scope index part).Gives allowed definition) :
    (origin index part).Defines scope definition := by
  simp only [define, gives_bind, gives_ofExcept] at h
  obtain ⟨document, hdocument, metadata, hmetadata, inner, hinner, codec, hbrand, h⟩ := h
  obtain ⟨condition, rfl⟩ := exists_of_brand hbrand
  have hschema : (origin index part).schema = document := by
    rw [origin, hdocument]
    rfl
  have hcompile : (compile scope true (origin index part).location
      (origin index part).schema).result = .ok inner := by
    rw [hschema]
    exact hinner.result
  have hextracted : Metadata.ofSchema (origin index part).location (origin index part).schema =
      .ok metadata := by
    rw [hschema]
    exact hmetadata
  split at h
  · next title description hheading =>
      rw [← gives_return.mp h]
      refine ⟨⟨inner, condition, hcompile, rfl⟩, metadata, hextracted, ?_⟩
      rw [Origin.headed, origin, hheading]
      rfl
  · next hheading =>
      rw [← gives_return.mp h]
      refine ⟨⟨inner, condition, hcompile, rfl⟩, metadata, hextracted, ?_⟩
      rw [Origin.headed, origin, hheading]

private theorem defines_expandLinks {links : List Document} {definitions : List Definition}
    (h : (expandLinks Template.check scope links).Gives allowed definitions) :
    List.Forall₂ (Origin.Defines scope) (originsOf links) definitions := by
  unfold expandLinks at h
  dsimp only at h
  unfold originsOf
  split at h
  · next hseveral =>
      simp only [gives_bind, gives_return] at h
      obtain ⟨-, -, rfl⟩ := h
      split
      · next hone => simp [hone] at hseveral
      · exact .nil
  · next hfew =>
      have hrest := gives_of_reportIf h
      cases himplementations : implementations links with
      | nil =>
          rw [himplementations] at hrest
          rw [← gives_return.mp hrest]
          exact .nil
      | cons first others =>
          have hothers : others = [] := by
            rw [himplementations, List.length_cons] at hfew
            exact List.length_eq_zero_iff.mp (by omega)
          subst hothers
          rw [himplementations] at hrest
          obtain ⟨-, -, hsections⟩ := gives_bind.mp hrest
          refine List.forall₂_map_left_iff.mpr ((gives_each.mp hsections).imp ?_)
          intro part definition hdefinition
          exact defines_section hdefinition

private theorem defines_expand {root : Document} {definitions : List Definition}
    (h : (expand scope root).Gives allowed definitions) :
    List.Forall₂ (Origin.Defines scope)
      (originsOf ((root.get? "links").elim [] Document.items)) definitions := by
  unfold expand expandBy at h
  split at h
  · next hnone =>
      rw [hnone, ← gives_pure.mp h]
      exact .nil
  · next links hlinks =>
      rw [hlinks]
      exact defines_expandLinks h
  · exact (gives_stop.mp h).elim

end Link

namespace Module

open Conversion

variable {scope : Scope} {schema : Document} {defaultName : String}

def namedOrigins (schema : Document) : List Origin :=
  ((schema.get? "definitions").elim [] Document.members).map fun member =>
    ⟨Name.ofKebab member.1, Location.root.down ["definitions", member.1], member.2, none⟩

/-- The origins of all definitions of a document. A named definition takes the place of a root of the
same name and of the endpoint. -/
def origins (schema : Document) (defaultName : String) : List Origin :=
  if defaultName ∈ (namedOrigins schema).map Origin.name then namedOrigins schema
  else namedOrigins schema ++
    ⟨defaultName, .root, schema, some (defaultName, rootDescription)⟩ ::
      Link.originsOf ((schema.get? "links").elim [] Document.items)

theorem names_of_defines {sources : List Origin} {definitions : List Definition}
    (h : List.Forall₂ (Origin.Defines scope) sources definitions) :
    definitions.map Definition.name = sources.map Origin.name := by
  induction h with
  | nil => rfl
  | cons hfirst _ ih => rw [List.map_cons, List.map_cons, hfirst.name, ih]

theorem defines_namedDefinitions {allowed : Event → Prop} {definitions : List Definition}
    (h : (namedDefinitions scope schema).Gives allowed definitions) :
    List.Forall₂ (Origin.Defines scope) (namedOrigins schema) definitions := by
  unfold namedDefinitions at h
  unfold namedOrigins
  split at h
  · next hnone =>
      rw [hnone, ← gives_pure.mp h]
      exact .nil
  · next members hmembers =>
      rw [hmembers]
      refine List.forall₂_map_left_iff.mpr ((gives_each.mp h).imp ?_)
      intro member definition hdefinition
      exact defines_define hdefinition
  · exact (gives_fail.mp h).elim

theorem defines_collect {definitions : List Definition}
    (h : (collect scope defaultName schema).Gives faultless definitions) :
    List.Forall₂ (Origin.Defines scope) (origins schema defaultName) definitions := by
  simp only [collect, gives_bind] at h
  obtain ⟨named, hnamed, h⟩ := h
  have hdefines := defines_namedDefinitions hnamed
  have hclash : (named.any fun definition => definition.name == defaultName) = true ↔
      defaultName ∈ (namedOrigins schema).map Origin.name := by
    rw [← names_of_defines hdefines]
    simp
  unfold origins
  split at h
  · next hany =>
      simp only [gives_bind, gives_return] at h
      obtain ⟨-, -, rfl⟩ := h
      rw [if_pos (hclash.mp hany)]
      exact hdefines
  · next hany =>
      have hrest := gives_of_reportIf h
      simp only [gives_bind, gives_return] at hrest
      obtain ⟨-, -, -, -, root, hroot, endpoint, hendpoint, rfl⟩ := hrest
      rw [if_neg fun hmem => hany (hclash.mpr hmem)]
      exact List.rel_append hdefines
        (.cons (defines_defineRoot hroot) (Link.defines_expand hendpoint))

/-- The names of a module are those of the origins in some order. -/
theorem names_perm_of_defines {sources : List Origin} {definitions : List Definition}
    (h : List.Forall₂ (Origin.Defines scope) sources definitions) :
    ((Declaration.sort (definitions.map Definition.declaration)).map Declaration.name).Perm
      (sources.map Origin.name) := by
  have hsort := (Declaration.sort_perm (definitions.map Definition.declaration)).map
    Declaration.name
  rw [List.map_map] at hsort
  rw [← names_of_defines h]
  exact hsort

end Module

end SchemaCodec
