import SchemaCodec.Proofs.Module.Bindings

namespace SchemaCodec

/-! Which modules import the library of codecs. Every definition is written with it, but a
reference at the top of a definition does not ask for it, and a named definition that takes the
place of the root keeps the root from doing so. -/

namespace Resolver

private theorem underscore_mem_importName {resolver : Resolver} {file reference name : String}
    (h : resolver.importName file reference = .ok name) : '_' ∈ name.toList := by
  unfold importName at h
  dsimp only at h
  split at h
  · rw [← Except.ok.inj h]
    simp
  · generalize Digest.sumText _ _ = sum at h
    cases sum with
    | error cause => cases h
    | ok sum =>
      rw [← Except.ok.inj h]
      simp

end Resolver

private theorem Requirement.underscore_mem_moduleImport {name : String} (path : String)
    (hname : '_' ∈ name.toList) : '_' ∈ (moduleImport name path).toList := by
  unfold moduleImport
  rw [String.toList_append, String.toList_append, String.toList_append, String.toList_append]
  apply List.mem_append_left
  apply List.mem_append_left
  apply List.mem_append_left
  exact List.mem_append_right _ hname

namespace Conversion

variable {scope : Scope} {location : Location} {schema : Document} {name : String}
  {events : List Event}

/-- A reference asks for nothing but the module it leads to. -/
theorem module_of_fromReference {text : String} {codec : Codec}
    (h : (fromReference scope location schema text).Leaves events codec)
    {requirement : Requirement} (hrequired : .required requirement ∈ events) :
    ∃ name path, requirement = .module name path := by
  unfold fromReference at h
  obtain ⟨before, after, hquiet, htarget, rfl⟩ := exists_of_reportIf h
  rcases List.mem_append.1 hrequired with hrequired | hrequired
  · exact absurd hrequired (hquiet requirement)
  split at htarget
  · simp only [errorCodec, leaves_bind, leaves_report, leaves_return] at htarget
    obtain ⟨first, -, last, rfl, ⟨rfl, -⟩, rfl⟩ := htarget
    exact absurd hrequired (demandless_reported _ requirement)
  · split at htarget
    · obtain ⟨rfl, -⟩ := leaves_return.1 htarget
      cases hrequired
    · split at htarget
      · exact (leaves_fail.1 htarget).elim
      · simp only [leaves_bind, leaves_require, leaves_return] at htarget
        obtain ⟨first, -, last, rfl, ⟨rfl, -⟩, rfl⟩ := htarget
        cases List.mem_singleton.1 hrequired
        exact ⟨_, _, rfl⟩

private theorem referenceAt_leaves {text : Option String}
    (h : (referenceAt location schema).Leaves events text) :
    schema.has "$ref" = text.isSome := by
  unfold referenceAt at h
  split at h
  case h_1 hnone =>
    obtain ⟨-, rfl⟩ := leaves_pure.1 h
    rw [Document.has, hnone]
    rfl
  case h_2 found hfound =>
    obtain ⟨-, rfl⟩ := leaves_pure.1 h
    rw [Document.has, hfound]
    rfl
  case h_3 => exact (leaves_fail.1 h).elim

private theorem codecs_of_compile {isTop : Bool} {codec : Codec}
    (h : (compile scope isTop location schema).Leaves events codec)
    (href : schema.has "$ref" = false) : .required .codecs ∈ events := by
  unfold compile at h
  rw [compileWithin] at h
  unfold compileBy at h
  split at h
  · simp only [leaves_bind, leaves_require, leaves_return] at h
    obtain ⟨before, -, after, rfl, ⟨rfl, -⟩, rfl⟩ := h
    exact List.mem_cons_self
  · simp only [leaves_bind] at h
    obtain ⟨before, _, after, -, ⟨middle, text, last, htext, hcodec, rfl⟩, rfl⟩ := h
    rw [referenceAt_leaves htext] at href
    cases text with
    | some text => cases href
    | none =>
      simp only [leaves_bind, leaves_require] at hcodec
      obtain ⟨first, -, rest, rfl, -, rfl⟩ := hcodec
      simp
  · exact (leaves_fail.1 h).elim

private theorem codecs_required_define {definition : Definition}
    (h : (define scope location name schema).Leaves events definition) :
    .required .codecs ∈ events ↔ schema.has "$ref" = false := by
  simp only [define, leaves_bind, leaves_ofExcept, leaves_record, leaves_return] at h
  obtain ⟨before, metadata, after, ⟨rfl, -⟩, ⟨middle, codec, last, hcodec, ⟨final, -, none, rfl,
    ⟨rfl, -⟩, rfl⟩, rfl⟩, rfl⟩ := h
  have hmiddle : .required .codecs ∈ [] ++ (middle ++ ([.defined name false] ++ [])) ↔
      .required .codecs ∈ middle := by simp
  rw [hmiddle]
  unfold definitionCodec at hcodec
  split at hcodec
  · simp only [leaves_bind, leaves_return] at hcodec
    obtain ⟨first, inner, rest, hinner, ⟨rfl, -⟩, rfl⟩ := hcodec
    rw [List.append_nil]
    exact iff_of_true (codecs_of_compile hinner rfl) rfl
  · simp only [leaves_bind] at hcodec
    obtain ⟨first, text, rest, htext, hcodec, rfl⟩ := hcodec
    rw [events_referenceAt htext, List.nil_append, referenceAt_leaves htext]
    cases text with
    | some text =>
      simp only [leaves_bind, leaves_return] at hcodec
      obtain ⟨second, inner, last, hinner, ⟨rfl, -⟩, rfl⟩ := hcodec
      rw [List.append_nil]
      refine iff_of_false (fun hrequired => ?_) Bool.noConfusion
      obtain ⟨other, path, heq⟩ := module_of_fromReference hinner hrequired
      cases heq
    | none =>
      simp only [leaves_bind] at hcodec
      obtain ⟨second, inner, last, hinner, -, rfl⟩ := hcodec
      have href : schema.has "$ref" = false := referenceAt_leaves htext
      exact iff_of_true (List.mem_append_left last (codecs_of_compile hinner href)) rfl

end Conversion

namespace Module

open Conversion

variable {scope : Scope} {schema : Document} {defaultName : String} {events : List Event}

private theorem codecs_required_namedDefinitions {definitions : List Definition}
    (h : (namedDefinitions scope schema).Leaves events definitions) :
    .required .codecs ∈ events ↔
      ∃ source ∈ namedSources schema, source.2.has "$ref" = false := by
  unfold namedDefinitions at h
  unfold namedSources
  split at h
  case h_1 hnone =>
    obtain ⟨rfl, -⟩ := leaves_pure.1 h
    rw [hnone]
    simp
  case h_2 members hmembers =>
    rw [hmembers]
    constructor
    · intro hrequired
      obtain ⟨member, hmember, part, definition, hdefine, hpart⟩ := exists_of_mem_each h hrequired
      exact ⟨_, List.mem_map_of_mem hmember, (codecs_required_define hdefine).1 hpart⟩
    · rintro ⟨source, hsource, href⟩
      obtain ⟨member, hmember, rfl⟩ := List.mem_map.1 hsource
      obtain ⟨part, definition, hdefine, hsub⟩ := exists_leaves_of_mem h hmember
      exact hsub ((codecs_required_define hdefine).2 href)
  case h_3 => exact (leaves_fail.1 h).elim

/-- The document names a definition that takes the place of its root, and all definitions that it
names are references. -/
def OnlyReferences (schema : Document) (defaultName : String) : Prop :=
  (∃ source ∈ namedSources schema, source.1 = defaultName) ∧
    ∀ source ∈ namedSources schema, source.2.has "$ref" = true

private theorem codecs_required_collect {definitions : List Definition}
    (h : (collect scope defaultName schema).Leaves events definitions) :
    definitions ≠ [] ∧ (.required .codecs ∈ events ↔ ¬ OnlyReferences schema defaultName) := by
  simp only [collect, leaves_bind] at h
  obtain ⟨before, named, after, hnamed, hrest, rfl⟩ := h
  have hgives : (namedDefinitions scope schema).Gives anything named :=
    hnamed.gives fun _ _ => trivial
  have hany := any_name_eq defaultName (represents_namedDefinitions hgives)
  have hcodecs := codecs_required_namedDefinitions hnamed
  split at hrest
  case isTrue hclash =>
    simp only [leaves_bind, leaves_warn, leaves_return] at hrest
    obtain ⟨warned, -, last, rfl, ⟨rfl, rfl⟩, rfl⟩ := hrest
    constructor
    · rintro rfl
      cases hclash
    · rw [hclash, eq_comm, List.any_eq_true] at hany
      obtain ⟨source, hsource, hname⟩ := hany
      have hpresent : ∃ source ∈ namedSources schema, source.1 = defaultName :=
        ⟨source, hsource, beq_iff_eq.1 hname⟩
      simp only [OnlyReferences, hpresent, true_and, not_forall, Bool.not_eq_true, exists_prop,
        ← hcodecs]
      simp
  case isFalse hfree =>
    obtain ⟨warned, rest, hquiet, hroots, rfl⟩ := exists_of_reportIf hrest
    simp only [leaves_bind, leaves_require, leaves_return] at hroots
    obtain ⟨first, -, others, rfl, ⟨second, -, last, rfl, ⟨third, root, -, -, ⟨fourth, endpoint, -,
      -, ⟨rfl, rfl⟩, rfl⟩, rfl⟩, rfl⟩, rfl⟩ := hroots
    refine ⟨by simp, iff_of_true (by simp) ?_⟩
    rintro ⟨⟨source, hsource, hname⟩, -⟩
    apply hfree
    rw [hany, List.any_eq_true]
    exact ⟨source, hsource, beq_iff_eq.2 hname⟩

def codecsImport : String :=
  "import * as t from 'io-ts';"

/-- No import of another document reads like the import of the library. -/
theorem codecsImport_mem_iff {definitions : List Definition} {file : String} {blocks : List Block}
    (haccounts : Accounts scope events (Definition.types definitions)) :
    codecsImport ∈ (ofBlocks schema ((Context.fresh file).absorb events) blocks).imports ↔
      .required .codecs ∈ events := by
  change codecsImport ∈ ((Context.fresh file).absorb events).imports.values ↔ _
  rw [Context.mem_imports]
  constructor
  · rintro ⟨requirement, hmem, hstatement⟩
    cases requirement with
    | codecs => exact hmem
    | filledArrayType => exact absurd hstatement (by decide)
    | filledArrayCodec => exact absurd hstatement (by decide)
    | «module» name path =>
      -- The name of an import has an underscore, the name of the library has none.
      obtain ⟨text, target, -, hname, -, -⟩ := haccounts.used _ hmem
      have hstatement : Requirement.moduleImport name path = codecsImport :=
        Option.some.inj hstatement
      have hunderscore := Requirement.underscore_mem_moduleImport path
        (Resolver.underscore_mem_importName hname)
      rw [hstatement] at hunderscore
      exact absurd hunderscore (by decide)
    | helper => cases hstatement
    | defaultExport => cases hstatement
  · intro hmem
    exact ⟨.codecs, hmem, rfl⟩

/-- Every module has a definition, and it imports the library of codecs unless all its definitions
are references and one of them takes the place of the root. -/
theorem codecs_imported_iff {options : Options} {m : Module}
    (h : (generate options schema).result = .ok m) :
    m.blocks ≠ [] ∧
      (codecsImport ∈ m.imports ↔
        ¬ OnlyReferences schema (Name.ofFilePath options.inputFile)) := by
  obtain ⟨mappings, events, blocks, -, hleaves, -, rfl⟩ := exists_leaves_of_generate h
  obtain ⟨_, -, -, haccounts⟩ := accounts_convert hleaves
  simp only [convert, leaves_bind] at hleaves
  obtain ⟨before, definitions, after, hcollect, hblocks, rfl⟩ := hleaves
  obtain ⟨hdefinitions, hcodecs⟩ := codecs_required_collect hcollect
  constructor
  · have hgives : (blocksOf definitions).Gives anything blocks := hblocks.gives fun _ _ => trivial
    obtain ⟨definition, hdefinition⟩ := List.exists_mem_of_ne_nil definitions hdefinitions
    have hdeclaration : definition.declaration ∈
        Declaration.sort (definitions.map Definition.declaration) :=
      Declaration.mem_sort.2 (List.mem_map_of_mem hdefinition)
    obtain ⟨b, hb, -⟩ := exists_right_of_forall₂ (renders_of_blocksOf hgives) hdeclaration
    exact List.ne_nil_of_mem hb
  · have hafter : .required .codecs ∉ after := by
      intro hrequired
      rcases required_of_blocksOf hblocks hrequired with heq | heq
      · cases heq
      · cases heq
    rw [codecsImport_mem_iff haccounts, List.mem_append, or_iff_left hafter, hcodecs]

def clashOptions : Options :=
  ⟨[], "", "a.json", "", 0, "", false, false⟩

/-- The only definition refers to another document and has the name that the root would have. -/
def clashSchema : Document :=
  .object [("definitions", .object [("a", .object [("$ref", .string "b.json")])])]

theorem codecs_imported_iff_clash :
    (∃ m, (generate clashOptions clashSchema).result = .ok m ∧ m.blocks ≠ [] ∧
      codecsImport ∉ m.imports) ∧
    ∃ m, (generate exchangeOptions exchangeSchema).result = .ok m ∧ m.blocks ≠ [] ∧
      codecsImport ∈ m.imports := by
  have hclash : ∃ m, (generate clashOptions clashSchema).result = .ok m := ⟨_, rfl⟩
  have hexchange : ∃ m, (generate exchangeOptions exchangeSchema).result = .ok m := ⟨_, rfl⟩
  obtain ⟨m, hm⟩ := hclash
  obtain ⟨n, hn⟩ := hexchange
  obtain ⟨hblocks, hcodecs⟩ := codecs_imported_iff hm
  obtain ⟨hblocks', hcodecs'⟩ := codecs_imported_iff hn
  have honly : OnlyReferences clashSchema (Name.ofFilePath clashOptions.inputFile) :=
    ⟨⟨_, List.mem_cons_self, rfl⟩, by simp [namedSources, clashSchema, Document.get?, Document.has,
      Document.members]⟩
  have hroot : ¬ OnlyReferences exchangeSchema (Name.ofFilePath exchangeOptions.inputFile) := by
    rintro ⟨⟨source, hsource, hname⟩, -⟩
    cases List.mem_singleton.1 hsource
    exact absurd hname (by decide)
  exact ⟨⟨m, hm, hblocks, fun hmem => hcodecs.1 hmem honly⟩,
    n, hn, hblocks', hcodecs'.2 hroot⟩

/-- A module whose text uses the library without importing it. -/
theorem codecs_missing_clash :
    ∃ m, (generate clashOptions clashSchema).result = .ok m ∧
      m.blocks.map Block.static = ["export type A = t.Branded<B_.B, ABrand>"] ∧
      m.imports = ["import * as B_ from './b';"] ∧ codecsImport ∉ m.imports :=
  ⟨_, rfl, by decide, by decide, by decide⟩

end Module

end SchemaCodec
