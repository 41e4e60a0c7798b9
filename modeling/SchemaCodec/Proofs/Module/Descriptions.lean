import Mathlib.Data.List.Nodup
import SchemaCodec.Proofs.Module.Origins

namespace SchemaCodec.Module

open Conversion

/-! What the blocks of a module say beside their codecs, and which schema says so. -/

/-- The block has the codec of one origin, and says what the schema of another says. -/
structure Shows (scope : Scope) (origin source : Origin) (b : Block) : Prop where
  rendered : ∃ inner condition,
    (compile scope true origin.location origin.schema).result = .ok inner ∧
      Renders (.plain origin.name (.brand inner condition origin.name)) b
  described : ∃ extracted, Metadata.ofSchema source.location source.schema = .ok extracted ∧
    Describes (source.headed extracted) b

/-- No origin behind this one has its name. -/
def LastNamed (sources : List Origin) (name : String) (source : Origin) : Prop :=
  ∃ before after, sources = before ++ source :: after ∧ source.name = name ∧
    ∀ other ∈ after, other.name ≠ name

private theorem LastNamed.eq_of_nodup {sources : List Origin} {origin source : Origin}
    (h : LastNamed sources origin.name source) (hnodup : (sources.map Origin.name).Nodup)
    (hmem : origin ∈ sources) : source = origin := by
  obtain ⟨before, after, rfl, hname, -⟩ := h
  exact List.inj_on_of_nodup_map hnodup (by simp) hmem hname

/-! The last definition of a name counts. -/

private theorem metadataOf_cons_of_mem {definition : Definition} {definitions : List Definition}
    {name : String} (h : name ∈ definitions.map Definition.name) :
    metadataOf (definition :: definitions) name = metadataOf definitions name := by
  obtain ⟨found, hfound, hname⟩ := List.mem_map.mp h
  have hsome : (definitions.reverse.find? fun other => other.name == name).isSome = true := by
    rw [List.find?_isSome]
    exact ⟨found, List.mem_reverse.mpr hfound, beq_iff_eq.mpr hname⟩
  obtain ⟨last, hlast⟩ := Option.isSome_iff_exists.mp hsome
  unfold metadataOf
  rw [List.reverse_cons, List.find?_append, hlast]
  rfl

private theorem metadataOf_cons_of_not_mem {definition : Definition} {definitions : List Definition}
    (h : definition.name ∉ definitions.map Definition.name) :
    metadataOf (definition :: definitions) definition.name = definition.metadata := by
  have hnone : (definitions.reverse.find? fun other => other.name == definition.name) = none := by
    rw [List.find?_eq_none]
    intro other hother hname
    exact h (List.mem_map.mpr ⟨other, List.mem_reverse.mp hother, beq_iff_eq.mp hname⟩)
  unfold metadataOf
  rw [List.reverse_cons, List.find?_append, hnone]
  simp

private theorem exists_lastNamed {scope : Scope} {sources : List Origin}
    {definitions : List Definition}
    {name : String} (h : List.Forall₂ (Origin.Defines scope) sources definitions)
    (hmem : name ∈ sources.map Origin.name) :
    ∃ source definition, LastNamed sources name source ∧ source.Defines scope definition ∧
      metadataOf definitions name = definition.metadata := by
  induction h with
  | nil => cases hmem
  | @cons first definition sources definitions hfirst hrest ih =>
      -- The first counts only if the name does not come again.
      by_cases hlater : name ∈ sources.map Origin.name
      · obtain ⟨source, found, ⟨before, after, rfl, hname, hafter⟩, hdefines, hmetadata⟩ :=
          ih hlater
        refine ⟨source, found, ⟨first :: before, after, rfl, hname, hafter⟩, hdefines, ?_⟩
        rw [← names_of_defines hrest] at hlater
        rw [metadataOf_cons_of_mem hlater, hmetadata]
      · have hname : name = first.name := by
          rcases List.mem_cons.mp hmem with hname | hother
          · exact hname
          · exact absurd hother hlater
        subst hname
        refine ⟨first, definition, ⟨[], sources, rfl, rfl, ?_⟩, hfirst, ?_⟩
        · intro other hother hsame
          exact hlater (List.mem_map.mpr ⟨other, hother, hsame⟩)
        · rw [← names_of_defines hrest, ← hfirst.name] at hlater
          rw [← hfirst.name]
          exact metadataOf_cons_of_not_mem hlater

/-! Blocks stand in the order of the declarations, which have the order of dependencies. -/

private theorem forall₂_comp {first : α → β → Prop} {second : β → γ → Prop} {items : List α}
    {middle : List β} {values : List γ} (h : List.Forall₂ first items middle)
    (hvalues : List.Forall₂ second middle values) :
    List.Forall₂ (Relation.Comp first second) items values := by
  induction h generalizing values with
  | nil =>
      cases hvalues
      exact .nil
  | cons hitem _ ih =>
      cases hvalues with
      | cons hvalue hrest => exact .cons ⟨_, hitem, hvalue⟩ (ih hrest)

private theorem exists_arranged {scope : Scope} {sources : List Origin}
    {definitions : List Definition}
    (h : List.Forall₂ (Origin.Defines scope) sources definitions) :
    ∃ arranged, arranged.Perm sources ∧
      List.Forall₂ (fun origin declaration => ∃ definition, origin.Defines scope definition ∧
        definition.declaration = declaration) arranged
        (Declaration.sort (definitions.map Definition.declaration)) := by
  have hdeclarations : List.Forall₂ (fun declaration origin => ∃ definition,
      Origin.Defines scope origin definition ∧ definition.declaration = declaration)
      (definitions.map Definition.declaration) sources := by
    rw [List.forall₂_map_left_iff]
    exact h.flip.imp fun definition origin hdefines => ⟨definition, hdefines, rfl⟩
  obtain ⟨arranged, harranged, hperm⟩ :=
    List.perm_comp_forall₂ (Declaration.sort_perm _) hdeclarations
  exact ⟨arranged, hperm, harranged.flip⟩

private theorem shows_of_block {scope : Scope} {allowed : Event → Prop} {sources : List Origin}
    {definitions : List Definition} {origin : Origin} {definition : Definition} {b : Block}
    (h : List.Forall₂ (Origin.Defines scope) sources definitions) (hmem : origin ∈ sources)
    (hdefines : origin.Defines scope definition)
    (hblock : (block definitions definition.declaration).Gives allowed b) :
    ∃ source, LastNamed sources origin.name source ∧ Shows scope origin source b := by
  obtain ⟨source, found, hlast, hsource, hmetadata⟩ := exists_lastNamed h (List.mem_map_of_mem hmem)
  obtain ⟨inner, condition, hinner, hdeclaration⟩ := hdefines.declaration
  obtain ⟨extracted, hextracted, hheaded⟩ := hsource.metadata
  refine ⟨source, hlast, ⟨inner, condition, hinner, ?_⟩, extracted, hextracted, ?_⟩
  · rw [← hdeclaration]
    exact renders_of_block hblock
  · have hdescribes := (shows_of_ofDeclaration (gives_block hblock)).2
    have hname : definition.declaration.name = origin.name := hdefines.name
    rwa [hname, hmetadata, hheaded] at hdescribes

theorem exists_shows_of_generate {options : Options} {schema : Document} {m : Module}
    (h : (generate options schema).result = .ok m) :
    let sources := origins schema (Name.ofFilePath options.inputFile)
    ∃ mappings arranged, ImportMapping.parseAll options.imports = .ok mappings ∧
      arranged.Perm sources ∧
      List.Forall₂ (fun origin b => ∃ source, LastNamed sources origin.name source ∧
        Shows (options.scope mappings) origin source b) arranged m.blocks := by
  intro sources
  obtain ⟨mappings, definitions, hmappings, hcollect, hblocks⟩ := exists_blocksOf_of_generate h
  have hdefines : List.Forall₂ (Origin.Defines (options.scope mappings)) sources definitions :=
    defines_collect hcollect
  -- The order of dependencies moves the origins together with their declarations.
  obtain ⟨arranged, hperm, harranged⟩ := exists_arranged hdefines
  have hcomposed := (List.forall₂_and_left _ _).mpr
    ⟨fun origin hmem => hperm.mem_iff.mp hmem, forall₂_comp harranged (gives_each.mp hblocks)⟩
  refine ⟨mappings, arranged, hmappings, hperm, hcomposed.imp ?_⟩
  rintro origin b ⟨hmem, _, ⟨definition, hdefinition, rfl⟩, hblock⟩
  exact shows_of_block hdefines hmem hdefinition hblock

private theorem names_of_shows {scope : Scope} {sources arranged : List Origin} {m : Module}
    (h : List.Forall₂ (fun origin b => ∃ source, LastNamed sources origin.name source ∧
      Shows scope origin source b) arranged m.blocks) :
    m.names = arranged.map Origin.name := by
  have hnames : List.Forall₂ (fun origin b => origin.name = b.name) arranged m.blocks := by
    refine h.imp ?_
    rintro origin b ⟨source, -, hshown⟩
    obtain ⟨inner, condition, -, hrenders⟩ := hshown.rendered
    exact hrenders.name.symm
  rw [← List.forall₂_map_right_iff, ← List.forall₂_map_left_iff, List.forall₂_eq_eq_eq] at hnames
  exact hnames.symm

/-- Each block of a module has the codec of one origin and says what the last schema of that name
says. So names are distinct and blocks speak for themselves exactly where the names of the origins
are distinct. -/
theorem blocks_show_last_named (options : Options) (schema : Document) (m : Module)
    (h : (generate options schema).result = .ok m) :
    let sources := origins schema (Name.ofFilePath options.inputFile)
    (m.names.Nodup ↔ (sources.map Origin.name).Nodup) ∧
    ∃ mappings arranged, ImportMapping.parseAll options.imports = .ok mappings ∧
      arranged.Perm sources ∧
      List.Forall₂ (fun origin b => ∃ source, LastNamed sources origin.name source ∧
        Shows (options.scope mappings) origin source b) arranged m.blocks ∧
      ((sources.map Origin.name).Nodup →
        List.Forall₂ (fun origin b => Shows (options.scope mappings) origin origin b) arranged
          m.blocks) := by
  intro sources
  obtain ⟨mappings, arranged, hmappings, hperm, hshows⟩ := exists_shows_of_generate h
  have hnames : m.names.Perm (sources.map Origin.name) := by
    rw [names_of_shows hshows]
    exact hperm.map Origin.name
  refine ⟨hnames.nodup_iff, mappings, arranged, hmappings, hperm, hshows, ?_⟩
  intro hnodup
  have hmembers := (List.forall₂_and_left _ _).mpr
    ⟨fun origin hmem => hperm.mem_iff.mp hmem, hshows⟩
  refine hmembers.imp ?_
  rintro origin b ⟨hmem, source, hlast, hshown⟩
  rwa [hlast.eq_of_nodup hnodup hmem] at hshown

def pairOptions : Options :=
  ⟨[], "", "pair.json", "", 0, "", false, false⟩

def pairSchema (first second : String) : Document :=
  .object [
    ("definitions", .object [
      (first, .object [("type", .string "string"), ("title", .string "first")]),
      (second, .object [("type", .string "number"), ("title", .string "second")])]),
    ("type", .string "object")]

theorem blocks_show_last_named_pair :
    ∃ m, (generate pairOptions (pairSchema "left" "right")).result = .ok m ∧ m.names.Nodup ∧
      ∃ mappings arranged, ImportMapping.parseAll pairOptions.imports = .ok mappings ∧
        arranged.Perm (origins (pairSchema "left" "right") "Pair") ∧
        List.Forall₂ (fun origin b => Shows (pairOptions.scope mappings) origin origin b) arranged
          m.blocks := by
  have hgenerate : ∃ m, (generate pairOptions (pairSchema "left" "right")).result = .ok m :=
    ⟨_, rfl⟩
  obtain ⟨m, hm⟩ := hgenerate
  obtain ⟨hnodup, mappings, arranged, hmappings, hperm, -, hown⟩ :=
    blocks_show_last_named pairOptions (pairSchema "left" "right") m hm
  have hnames : ((origins (pairSchema "left" "right") "Pair").map Origin.name).Nodup := by decide
  exact ⟨m, hm, hnodup.mpr hnames, mappings, arranged, hmappings, hperm, hown hnames⟩

/-- Keys that make one name: the name is declared twice, and the text has the title of the number. -/
theorem twins_share_title :
    ∃ m, (generate pairOptions (pairSchema "a" "A")).result = .ok m ∧
      m.names = ["A", "A", "Pair"] ∧
      m.blocks.head?.map (fun b => (b.static, b.title)) =
        some ("export type A = t.Branded<string, ABrand>", "second") := by
  refine ⟨_, rfl, ?_, ?_⟩
  · decide
  · decide

end SchemaCodec.Module
