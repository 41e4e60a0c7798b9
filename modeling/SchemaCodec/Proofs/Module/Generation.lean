import SchemaCodec.Module.Generate
import SchemaCodec.Proofs.Conversion.Record
import SchemaCodec.Proofs.Conversion.References
import SchemaCodec.Proofs.Diagnostics.Tracking

namespace SchemaCodec

/-! What a module is made of: the definitions that its document stands for, and their blocks. -/

private theorem Tracker.severity_ne_error {tracker : Tracker} {reports : List Report}
    (h : (tracker.reportAll reports).level ≠ .error) :
    tracker.level ≠ .error ∧ ∀ report ∈ reports, report.severity ≠ .error := by
  rw [Ne, level_reportAll_eq_error, not_or] at h
  exact ⟨h.1, fun report hmem hseverity => h.2 ⟨report, hmem, hseverity⟩⟩

private theorem Tracker.level_ne_error {tracker : Tracker} {strict : Bool}
    (h : tracker.refusal? strict = none) : tracker.level ≠ .error := by
  intro hlevel
  unfold refusal? at h
  rw [hlevel] at h
  cases h

namespace Conversion

def faultless : Event → Prop
  | .reported report => report.severity ≠ .error
  | _ => True

theorem not_faultless_error {message : String} {cause : Option String} :
    ¬ faultless (.reported (.error message cause)) :=
  fun h => h rfl

/-- What a definition owes to its schema. -/
structure Represents (source : String × Document) (definition : Definition) : Prop where
  name : definition.name = source.1
  references : ∀ position text target, source.2.Reaches position →
    position.get? "$ref" = some (.string text) → Reference.parse text = .ok ⟨"", target⟩ →
    target ∈ definition.declaration.type.references

variable {allowed : Event → Prop} {scope : Scope} {location : Location} {schema : Document}
  {name : String}

private theorem gives_brand {inner codec : Codec}
    (h : (brand name inner schema).Gives allowed codec) :
    codec.references = inner.references := by
  simp only [brand, gives_bind, gives_return] at h
  obtain ⟨condition, -, rfl⟩ := h
  rfl

private theorem references_of_definitionCodec {codec : Codec} {position : Document}
    {text target : String} (h : (definitionCodec scope location name schema).Gives allowed codec)
    (hposition : schema.Reaches position) (href : position.get? "$ref" = some (.string text))
    (htext : Reference.parse text = .ok ⟨"", target⟩) : target ∈ codec.references := by
  unfold definitionCodec at h
  split at h
  · rw [Document.reaches_bool hposition] at href
    cases href
  · simp only [gives_bind, gives_referenceAt] at h
    obtain ⟨reference, hreference, h⟩ := h
    cases reference with
    | some found =>
        simp only [gives_bind, gives_return] at h
        obtain ⟨inner, hinner, rfl⟩ := h
        have hhere : position = schema := by
          rcases hposition.cases_head with heq | ⟨part, hpart, -⟩
          · exact heq
          · simp [Document.subschemas, Document.has, hreference] at hpart
        rw [hhere, hreference] at href
        cases href
        change target ∈ inner.references
        exact fromReference_definition hinner htext
    | none =>
        simp only [gives_bind] at h
        obtain ⟨inner, hinner, hbrand⟩ := h
        rw [gives_brand hbrand]
        exact mem_references_of_reaches hinner hposition href htext

private theorem represents_of_define {definition : Definition}
    (h : (define scope location name schema).Gives allowed definition) :
    Represents (name, schema) definition := by
  simp only [define, gives_bind, gives_return, gives_record] at h
  obtain ⟨metadata, -, codec, hcodec, -, -, rfl⟩ := h
  refine ⟨rfl, ?_⟩
  intro position text target hposition href htext
  exact references_of_definitionCodec hcodec hposition href htext

private theorem represents_of_defineRoot {definition : Definition}
    (h : (defineRoot scope name schema).Gives faultless definition) :
    Represents (name, schema) definition := by
  simp only [defineRoot, gives_bind, gives_return, gives_record] at h
  obtain ⟨metadata, -, inner, hinner, codec, hbrand, -, -, rfl⟩ := h
  refine ⟨rfl, ?_⟩
  intro position text target hposition href htext
  change target ∈ codec.references
  rw [gives_brand hbrand]
  simp only [rootCodec, gives_bind, gives_referenceAt] at hinner
  obtain ⟨reference, -, hinner⟩ := hinner
  cases reference with
  | some found =>
      -- A root that is a reference is an error.
      simp only [errorCodec, gives_bind, gives_report] at hinner
      obtain ⟨-, herror, -⟩ := hinner
      exact absurd herror not_faultless_error
  | none => exact mem_references_of_reaches hinner hposition href htext

end Conversion

namespace Module

open Conversion

variable {allowed : Event → Prop} {scope : Scope} {schema : Document} {defaultName : String}

def namedSources (schema : Document) : List (String × Document) :=
  ((schema.get? "definitions").elim [] Document.members).map
    fun member => (Name.ofKebab member.1, member.2)

/-- The names and the schemas of all definitions of a document but for its endpoint. A named
definition takes the place of a root of the same name. -/
def sources (schema : Document) (defaultName : String) : List (String × Document) :=
  if (namedSources schema).any fun source => source.1 == defaultName then namedSources schema
  else namedSources schema ++ [(defaultName, schema)]

theorem represents_namedDefinitions {definitions : List Definition}
    (h : (namedDefinitions scope schema).Gives allowed definitions) :
    List.Forall₂ Represents (namedSources schema) definitions := by
  unfold namedDefinitions at h
  unfold namedSources
  split at h
  · next hnone =>
      rw [hnone, ← gives_pure.mp h]
      exact .nil
  · next members hmembers =>
      rw [hmembers]
      refine List.forall₂_map_left_iff.mpr ((gives_each.mp h).imp ?_)
      intro member definition hgives
      exact represents_of_define hgives
  · exact (gives_fail.mp h).elim

theorem any_name_eq (defaultName : String) {sources : List (String × Document)}
    {definitions : List Definition}
    (h : List.Forall₂ Represents sources definitions) :
    (definitions.any fun definition => definition.name == defaultName) =
      sources.any fun source => source.1 == defaultName := by
  induction h with
  | nil => rfl
  | cons hfirst _ ih => rw [List.any_cons, List.any_cons, hfirst.name, ih]

private theorem represents_collect {definitions : List Definition}
    (h : (collect scope defaultName schema).Gives faultless definitions) :
    ∃ first endpoint, definitions = first ++ endpoint ∧
      List.Forall₂ Represents (sources schema defaultName) first := by
  simp only [collect, gives_bind] at h
  obtain ⟨named, hnamed, h⟩ := h
  have hrepresents := represents_namedDefinitions hnamed
  have hany := any_name_eq defaultName hrepresents
  unfold sources
  split at h
  · next hclash =>
      simp only [gives_bind, gives_return] at h
      obtain ⟨-, -, rfl⟩ := h
      rw [if_pos (hany ▸ hclash)]
      exact ⟨named, [], (List.append_nil _).symm, hrepresents⟩
  · next hfree =>
      rw [if_neg (hany ▸ hfree)]
      have hrest := gives_of_reportIf h
      simp only [gives_bind, gives_return] at hrest
      obtain ⟨-, -, -, -, root, hgives, endpoint, -, rfl⟩ := hrest
      refine ⟨named ++ [root], endpoint, by simp, ?_⟩
      exact List.rel_append hrepresents (.cons (represents_of_defineRoot hgives) .nil)

theorem exists_of_sources {definitions : List Definition} {i : Nat} {name : String}
    {part : Document} (h : (collect scope defaultName schema).Gives faultless definitions)
    (hsource : (sources schema defaultName)[i]? = some (name, part)) :
    ∃ definition, definitions[i]? = some definition ∧ Represents (name, part) definition := by
  obtain ⟨first, endpoint, rfl, hrepresents⟩ := represents_collect h
  obtain ⟨hlength, hrepresents⟩ := List.forall₂_iff_get.mp hrepresents
  obtain ⟨hi, hget⟩ := List.getElem?_eq_some_iff.mp hsource
  have hfirst : i < first.length := hlength ▸ hi
  refine ⟨first[i], ?_, ?_⟩
  · rw [List.getElem?_append_left hfirst, List.getElem?_eq_getElem hfirst]
  · have hboth := hrepresents i hi hfirst
    rw [List.get_eq_getElem, List.get_eq_getElem] at hboth
    rwa [hget] at hboth

/-! Blocks -/

/-- The block has the name and the texts of the declaration. -/
structure Renders (declaration : Declaration) (b : Block) : Prop where
  name : b.name = declaration.name
  static : b.static = declaration.staticText
  runtime : b.runtime = declaration.codecText

/-- What the block says beside its codec is what is known. -/
structure Describes (metadata : Metadata) (b : Block) : Prop where
  title : b.title = metadata.title.getD b.name
  description :
    b.description = metadata.description.getD "The purpose of this remains a mystery"
  examples : b.examples =
    if metadata.examples.isEmpty then none else some (Document.array metadata.examples).encode
  negatives : List.Forall₂ (fun sample found => Block.negative b.name sample = .ok found)
    metadata.invalid b.negatives
  constants : b.constants =
    [Block.constant? "default" metadata.default, Block.constant? "minimum" metadata.minimum,
     Block.constant? "maximum" metadata.maximum].filterMap id

theorem shows_of_ofDeclaration {declaration : Declaration} {metadata : Metadata} {b : Block}
    (h : Block.ofDeclaration declaration metadata = .ok b) :
    Renders declaration b ∧ Describes metadata b := by
  simp only [Block.ofDeclaration] at h
  cases hnegatives : metadata.invalid.mapM (Block.negative declaration.name) with
  | error cause =>
      rw [hnegatives] at h
      cases h
  | ok negatives =>
      rw [hnegatives] at h
      cases h
      exact ⟨⟨rfl, rfl, rfl⟩, rfl, rfl, rfl, forall₂_of_mapM hnegatives, rfl⟩

theorem gives_block {definitions : List Definition} {declaration : Declaration} {b : Block}
    (h : (block definitions declaration).Gives allowed b) :
    Block.ofDeclaration declaration (metadataOf definitions declaration.name) = .ok b := by
  simp only [block, gives_bind, gives_ofExcept] at h
  obtain ⟨found, hfound, h⟩ := h
  have hrest := gives_of_reportIf h
  have hsame : found = b := by
    split at hrest
    · simp only [gives_bind, gives_return] at hrest
      obtain ⟨-, -, -, -, hsame⟩ := hrest
      exact hsame
    · exact gives_return.mp hrest
  rw [← hsame]
  exact hfound

theorem renders_of_block {definitions : List Definition} {declaration : Declaration} {b : Block}
    (h : (block definitions declaration).Gives allowed b) : Renders declaration b :=
  (shows_of_ofDeclaration (gives_block h)).1

theorem renders_of_blocksOf {definitions : List Definition} {blocks : List Block}
    (h : (blocksOf definitions).Gives allowed blocks) :
    List.Forall₂ Renders (Declaration.sort (definitions.map Definition.declaration)) blocks :=
  (gives_each.mp h).imp fun _ _ hblock => renders_of_block hblock

theorem names_of_renders {declarations : List Declaration} {blocks : List Block}
    (h : List.Forall₂ Renders declarations blocks) :
    blocks.map Block.name = declarations.map Declaration.name := by
  induction h with
  | nil => rfl
  | cons hfirst _ ih => rw [List.map_cons, List.map_cons, hfirst.name, ih]

/-- A module comes from the record of a conversion that holds no error. -/
theorem exists_leaves_of_generate {options : Options} {m : Module}
    (h : (generate options schema).result = .ok m) :
    ∃ mappings events blocks, ImportMapping.parseAll options.imports = .ok mappings ∧
      (convert (options.scope mappings) options.inputFile schema).Leaves events blocks ∧
      (∀ event ∈ events, faultless event) ∧
      m = ofBlocks schema ((Context.fresh options.inputFile).absorb events) blocks := by
  unfold generate at h
  split at h
  · cases h
  · next mappings hmappings =>
      simp only at h
      split at h
      · cases h
      · next blocks hblocks =>
          split at h
          · cases h
          · next hrefusal =>
              cases h
              refine ⟨mappings, _, blocks, hmappings, leaves_events hblocks, ?_, rfl⟩
              intro event hevent
              cases event with
              | reported report =>
                  have hlevel := Tracker.level_ne_error hrefusal
                  exact (Tracker.severity_ne_error hlevel).2 report
                    (List.mem_filterMap.mpr ⟨_, hevent, rfl⟩)
              | required requirement => trivial
              | defined name isRoot => trivial

/-- A module comes from definitions, and no error is on record. -/
theorem exists_blocksOf_of_generate {options : Options} {m : Module}
    (h : (generate options schema).result = .ok m) :
    ∃ mappings definitions, ImportMapping.parseAll options.imports = .ok mappings ∧
      (collect (options.scope mappings) (Name.ofFilePath options.inputFile) schema).Gives faultless
        definitions ∧
      (blocksOf definitions).Gives faultless m.blocks := by
  obtain ⟨mappings, events, blocks, hmappings, hleaves, hfaultless, rfl⟩ :=
    exists_leaves_of_generate h
  have hgives := hleaves.gives hfaultless
  simp only [convert, gives_bind] at hgives
  obtain ⟨definitions, hcollect, hblocks⟩ := hgives
  exact ⟨mappings, definitions, hmappings, hcollect, hblocks⟩

theorem exists_of_generate {options : Options} {m : Module}
    (h : (generate options schema).result = .ok m) :
    ∃ mappings definitions, ImportMapping.parseAll options.imports = .ok mappings ∧
      (collect (options.scope mappings) (Name.ofFilePath options.inputFile) schema).Gives faultless
        definitions ∧
      m.names = (Declaration.sort (definitions.map Definition.declaration)).map
        Declaration.name := by
  obtain ⟨mappings, definitions, hmappings, hcollect, hblocks⟩ := exists_blocksOf_of_generate h
  exact ⟨mappings, definitions, hmappings, hcollect, names_of_renders (renders_of_blocksOf hblocks)⟩

end Module

end SchemaCodec
