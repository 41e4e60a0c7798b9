import SchemaCodec.Proofs.Conversion.Provision
import SchemaCodec.Proofs.Module.Generation
import SchemaCodec.Proofs.Order.Walk

namespace SchemaCodec

/-! The names that a module uses are bound in it, and it brings along nothing that it does not
use. -/

private theorem OrderedSet.mem_add {set : OrderedSet} {value other : String} :
    other ∈ (set.add value).values ↔ other ∈ set.values ∨ other = value := by
  unfold OrderedSet.add
  split
  case isTrue hmem =>
    refine ⟨.inl, ?_⟩
    rintro (hother | rfl)
    · exact hother
    · exact hmem
  case isFalse => simp

private theorem OrderedSet.mem_addAll {set : OrderedSet} {values : List String} {other : String} :
    other ∈ (set.addAll values).values ↔ other ∈ set.values ∨ other ∈ values := by
  induction values generalizing set with
  | nil => simp [OrderedSet.addAll]
  | cons value rest ih =>
    have hstep : set.addAll (value :: rest) = (set.add value).addAll rest := rfl
    rw [hstep, ih, OrderedSet.mem_add, List.mem_cons, or_assoc]

private theorem mem_requirements {events : List Event} {requirement : Requirement} :
    requirement ∈ events.filterMap Event.requirement? ↔ .required requirement ∈ events := by
  rw [List.mem_filterMap]
  constructor
  · rintro ⟨event, hmem, hevent⟩
    cases event with
    | required other =>
      cases hevent
      exact hmem
    | _ => cases hevent
  · intro hmem
    exact ⟨_, hmem, rfl⟩

theorem Context.mem_imports {file text : String} {events : List Event} :
    text ∈ ((Context.fresh file).absorb events).imports.values ↔
      ∃ requirement, .required requirement ∈ events ∧ requirement.importText? = some text := by
  change text ∈ (OrderedSet.addAll ∅ _).values ↔ _
  rw [OrderedSet.mem_addAll, List.mem_filterMap]
  simp only [mem_requirements]
  exact or_iff_right List.not_mem_nil

private theorem Context.mem_helpers {file text : String} {events : List Event} :
    text ∈ ((Context.fresh file).absorb events).helpers.values ↔
      ∃ requirement, .required requirement ∈ events ∧ requirement.helperText? = some text := by
  change text ∈ (OrderedSet.addAll ∅ _).values ↔ _
  rw [OrderedSet.mem_addAll, List.mem_filterMap]
  simp only [mem_requirements]
  exact or_iff_right List.not_mem_nil

def Definition.types (definitions : List Definition) : List Codec :=
  definitions.map fun definition => definition.declaration.type

namespace Link

open Conversion

variable {scope : Scope} {events : List Event}

theorem accounts_define {index : Nat} {part : Section} {definition : Definition}
    (h : (define scope index part).Leaves events definition) :
    Accounts scope events [definition.declaration.type] := by
  simp only [define, leaves_bind, leaves_ofExcept] at h
  obtain ⟨before, document, after, ⟨rfl, -⟩, ⟨none, metadata, rest, ⟨rfl, -⟩, ⟨first, inner, others,
    hinner, ⟨second, codec, last, hcodec, hdefinition, rfl⟩, rfl⟩, rfl⟩, rfl⟩ := h
  have haccounts := accounts_brand (accounts_compile hinner) hcodec
  rw [List.nil_append, List.nil_append]
  -- A heading changes what is said about the definition, not its codec.
  split at hdefinition
  · obtain ⟨rfl, rfl⟩ := leaves_return.1 hdefinition
    rwa [List.append_nil]
  · obtain ⟨rfl, rfl⟩ := leaves_return.1 hdefinition
    rwa [List.append_nil]

private theorem accounts_expandLinks {check : String → Except Template.Error Unit}
    {links : List Document} {definitions : List Definition}
    (h : (expandLinks check scope links).Leaves events definitions) :
    Accounts scope events (Definition.types definitions) := by
  unfold expandLinks at h
  dsimp only at h
  split at h
  · simp only [leaves_bind, leaves_warn, leaves_return] at h
    obtain ⟨before, -, after, rfl, ⟨rfl, rfl⟩, rfl⟩ := h
    exact .of_demandless (demandless_reported _)
  · obtain ⟨before, after, hquiet, hfound, rfl⟩ := exists_of_reportIf h
    apply Accounts.after_demandless hquiet
    split at hfound
    · obtain ⟨rfl, rfl⟩ := leaves_return.1 hfound
      exact .nil
    · simp only [leaves_bind, leaves_require] at hfound
      obtain ⟨required, -, last, rfl, hsections, rfl⟩ := hfound
      have hdefinitions : Accounts scope last (Definition.types definitions) := by
        rw [Definition.types, List.map_eq_flatMap]
        exact accounts_each _ (fun part events definition hdefinition =>
          accounts_define hdefinition) hsections
      exact accounts_codecs.append hdefinitions

private theorem accounts_expand {root : Document} {definitions : List Definition}
    (h : (expand scope root).Leaves events definitions) :
    Accounts scope events (Definition.types definitions) := by
  unfold expand expandBy at h
  split at h
  · obtain ⟨rfl, rfl⟩ := leaves_pure.1 h
    exact .nil
  · exact accounts_expandLinks h
  · exact (leaves_stop.1 h).elim

end Link

namespace Module

open Conversion
open Codec

variable {scope : Scope} {schema : Document} {defaultName : String} {events : List Event}

private theorem accounts_namedDefinitions {definitions : List Definition}
    (h : (namedDefinitions scope schema).Leaves events definitions) :
    Accounts scope events (Definition.types definitions) := by
  unfold namedDefinitions at h
  split at h
  · obtain ⟨rfl, rfl⟩ := leaves_pure.1 h
    exact .nil
  · rw [Definition.types, List.map_eq_flatMap]
    exact accounts_each _ (fun member events definition hdefinition =>
      Conversion.accounts_define hdefinition) h
  · exact (leaves_fail.1 h).elim

private theorem accounts_collect {definitions : List Definition}
    (h : (collect scope defaultName schema).Leaves events definitions) :
    Accounts scope events (Definition.types definitions) := by
  simp only [collect, leaves_bind] at h
  obtain ⟨before, named, after, hnamed, hrest, rfl⟩ := h
  have hnamedAccounts := accounts_namedDefinitions hnamed
  split at hrest
  · simp only [leaves_bind, leaves_warn, leaves_return] at hrest
    obtain ⟨warned, -, last, rfl, ⟨rfl, rfl⟩, rfl⟩ := hrest
    exact hnamedAccounts.before_demandless (demandless_reported _)
  · obtain ⟨warned, rest, hquiet, hroots, rfl⟩ := exists_of_reportIf hrest
    simp only [leaves_bind, leaves_require, leaves_return] at hroots
    obtain ⟨e₁, -, -, rfl, ⟨e₂, -, -, rfl, ⟨e₃, root, -, hroot, ⟨e₄, endpoint, -, hendpoint,
      ⟨rfl, rfl⟩, rfl⟩, rfl⟩, rfl⟩, rfl⟩ := hroots
    have hexport : Accounts scope [.required (.defaultExport defaultName)] [] := .required trivial
    have hroots := (accounts_defineRoot hroot).append
      ((Link.accounts_expand hendpoint).before_demandless demandless_nil)
    have hlast := Accounts.after_demandless hquiet
      (accounts_codecs.append (hexport.append hroots))
    rw [Definition.types, List.map_append]
    exact hnamedAccounts.append hlast

/-- Blocks bring in what examples need. -/
theorem required_of_block {definitions : List Definition} {declaration : Declaration} {b : Block}
    (h : (block definitions declaration).Leaves events b) {requirement : Requirement}
    (hrequired : .required requirement ∈ events) :
    requirement = .filledArrayType ∨ requirement = .filledArrayCodec := by
  simp only [block, leaves_bind, leaves_ofExcept] at h
  obtain ⟨before, found, after, ⟨rfl, -⟩, hafter, rfl⟩ := h
  obtain ⟨informed, rest, hquiet, hrest, rfl⟩ := exists_of_reportIf hafter
  rcases List.mem_append.1 hrequired with hrequired | hrequired
  · exact absurd hrequired (hquiet requirement)
  split at hrest
  · simp only [leaves_bind, leaves_require, leaves_return] at hrest
    obtain ⟨first, -, others, rfl, ⟨second, -, last, rfl, ⟨rfl, -⟩, rfl⟩, rfl⟩ := hrest
    simpa using hrequired
  · obtain ⟨rfl, -⟩ := leaves_return.1 hrest
    cases hrequired

theorem required_of_blocksOf {definitions : List Definition} {blocks : List Block}
    (h : (blocksOf definitions).Leaves events blocks) {requirement : Requirement}
    (hrequired : .required requirement ∈ events) :
    requirement = .filledArrayType ∨ requirement = .filledArrayCodec := by
  obtain ⟨declaration, -, part, b, hblock, hpart⟩ := exists_of_mem_each h hrequired
  exact required_of_block hblock hpart

private theorem accounts_blocksOf {definitions : List Definition} {blocks : List Block}
    (h : (blocksOf definitions).Leaves events blocks) : Accounts scope events [] := by
  apply Accounts.of_idle
  intro requirement hrequired
  rcases required_of_blocksOf h hrequired with rfl | rfl
  · trivial
  · trivial

theorem accounts_convert {inputFile : String} {blocks : List Block}
    (h : (convert scope inputFile schema).Leaves events blocks) :
    ∃ definitions, (collect scope (Name.ofFilePath inputFile) schema).result = .ok definitions ∧
      List.Forall₂ Renders (Declaration.sort (definitions.map Definition.declaration)) blocks ∧
      Accounts scope events (Definition.types definitions) := by
  simp only [convert, leaves_bind] at h
  obtain ⟨before, definitions, after, hcollect, hblocks, rfl⟩ := h
  have hgives : (blocksOf definitions).Gives anything blocks := hblocks.gives fun _ _ => trivial
  have haccounts := (accounts_collect hcollect).append (accounts_blocksOf hblocks)
  rw [List.append_nil] at haccounts
  exact ⟨definitions, hcollect.result, renders_of_blocksOf hgives, haccounts⟩

/-- The module has the statement that imports, or the text that declares, what is required. -/
structure Provides (m : Module) (requirement : Requirement) : Prop where
  imported : ∀ text, requirement.importText? = some text → text ∈ m.imports
  declared : ∀ text, requirement.helperText? = some text → text ∈ m.helpers

def libraryImports : List String :=
  [Requirement.codecs, .filledArrayType, .filledArrayCodec].filterMap Requirement.importText?

def Emits (declarations : List Declaration) (node : Codec) : Prop :=
  ∃ declaration ∈ declarations, declaration.type.Contains node

/-- What the nodes of the declarations refer to is provided by the module, and the module provides
no helper and no import of another document that they do not refer to. -/
structure Closed (scope : Scope) (declarations : List Declaration) (m : Module) : Prop where
  bound : ∀ node, Emits declarations node → node.isCustom = true → Bound scope m.Provides node
  complete : ¬ Emits declarations placeholder
  masked : scope.maskNull = true → ¬ Emits declarations .null
  helpers_used : ∀ text ∈ m.helpers, ∃ helper : Helper,
    text = helper.text ∧ Emits declarations (ofHelper helper)
  imports_used : ∀ statement ∈ m.imports, statement ∈ libraryImports ∨ ∃ text target name,
    Reference.parse text = .ok target ∧ scope.resolver.importName target.file text = .ok name ∧
      statement = Requirement.moduleImport name (scope.resolver.importPath target.file) ∧
      Emits declarations (ofImport name target.name)
  helpers_nodup : m.helpers.Nodup
  imports_nodup : m.imports.Nodup

private theorem emits_sort_iff {definitions : List Definition} {node : Codec} :
    Emits (Declaration.sort (definitions.map Definition.declaration)) node ↔
      Occurs node (Definition.types definitions) := by
  simp only [Emits, Occurs, Definition.types, Declaration.mem_sort, List.mem_map]
  constructor
  · rintro ⟨declaration, ⟨definition, hdefinition, rfl⟩, hnode⟩
    exact ⟨_, ⟨definition, hdefinition, rfl⟩, hnode⟩
  · rintro ⟨codec, ⟨definition, hdefinition, rfl⟩, hnode⟩
    exact ⟨_, ⟨definition, hdefinition, rfl⟩, hnode⟩

private theorem not_bound_placeholder {provided : Requirement → Prop} :
    ¬ Bound scope provided placeholder := by
  intro hbound
  generalize hnode : placeholder = node at hbound
  cases hbound with
  | defined => simp [placeholder, ofHelper, Helper.name] at hnode
  | null => simp [placeholder, ofHelper, Helper.name] at hnode
  | definition => simp [placeholder, ofDefinition] at hnode
  | imported => simp [placeholder, ofImport] at hnode

private theorem provides_of_required {file : String} {blocks : List Block}
    {requirement : Requirement}
    (h : .required requirement ∈ events) :
    (ofBlocks schema ((Context.fresh file).absorb events) blocks).Provides requirement where
  imported _ htext := Context.mem_imports.2 ⟨requirement, h, htext⟩
  declared _ htext := Context.mem_helpers.2 ⟨requirement, h, htext⟩

private theorem closed_of_accounts {definitions : List Definition} {file : String}
    {blocks : List Block}
    (haccounts : Accounts scope events (Definition.types definitions))
    (hfaultless : ∀ event ∈ events, faultless event) :
    Closed scope (Declaration.sort (definitions.map Definition.declaration))
      (ofBlocks schema ((Context.fresh file).absorb events) blocks) := by
  have hbound : ∀ node, Occurs node (Definition.types definitions) → node.isCustom = true →
      Bound scope (fun requirement => .required requirement ∈ events) node := by
    intro node hnode hcustom
    rcases haccounts.bound node hnode hcustom with hbound | ⟨report, hmem, herror⟩
    · exact hbound
    · exact absurd herror (hfaultless _ hmem)
  refine ⟨?_, ?_, ?_, ?_, ?_, OrderedSet.nodup _, OrderedSet.nodup _⟩
  · intro node hnode hcustom
    exact (hbound node (emits_sort_iff.1 hnode) hcustom).imp fun _ => provides_of_required
  · intro hnode
    exact not_bound_placeholder (hbound _ (emits_sort_iff.1 hnode) rfl)
  · intro hmask hnode
    exact haccounts.masked hmask (emits_sort_iff.1 hnode)
  · intro text htext
    obtain ⟨requirement, hmem, hrequirement⟩ := Context.mem_helpers.1 htext
    cases requirement with
    | helper helper =>
      cases hrequirement
      exact ⟨helper, rfl, emits_sort_iff.2 (haccounts.used _ hmem)⟩
    | _ => cases hrequirement
  · intro text htext
    obtain ⟨requirement, hmem, hrequirement⟩ := Context.mem_imports.1 htext
    cases requirement with
    | «module» name path =>
      cases hrequirement
      obtain ⟨text, target, hparse, hname, rfl, hnode⟩ := haccounts.used _ hmem
      exact .inr ⟨text, target, name, hparse, hname, rfl, emits_sort_iff.2 hnode⟩
    | codecs => exact .inl (List.mem_filterMap.2 ⟨.codecs, by simp, hrequirement⟩)
    | filledArrayType => exact .inl (List.mem_filterMap.2 ⟨.filledArrayType, by simp, hrequirement⟩)
    | filledArrayCodec =>
      exact .inl (List.mem_filterMap.2 ⟨.filledArrayCodec, by simp, hrequirement⟩)
    | helper => cases hrequirement
    | defaultExport => cases hrequirement

/-- Whatever a module refers to is bound in it, and it holds no helper and no import of another
document in vain. -/
theorem references_bound {options : Options} {m : Module}
    (h : (generate options schema).result = .ok m) :
    ∃ mappings definitions, ImportMapping.parseAll options.imports = .ok mappings ∧
      (collect (options.scope mappings) (Name.ofFilePath options.inputFile) schema).result =
        .ok definitions ∧
      List.Forall₂ Renders (Declaration.sort (definitions.map Definition.declaration)) m.blocks ∧
      Closed (options.scope mappings)
        (Declaration.sort (definitions.map Definition.declaration)) m := by
  obtain ⟨mappings, events, blocks, hmappings, hleaves, hfaultless, rfl⟩ :=
    exists_leaves_of_generate h
  obtain ⟨definitions, hcollect, hrenders, haccounts⟩ := accounts_convert hleaves
  exact ⟨mappings, definitions, hmappings, hcollect, hrenders,
    closed_of_accounts haccounts hfaultless⟩

def exchangeOptions : Options :=
  ⟨[], "", "exchange.json", "", 0, "", false, true⟩

/-- A masked null, a key that must be there, and references to definitions of this document and of
another. -/
def exchangeSchema : Document :=
  .object [("$schema", .string "draft-07"),
    ("definitions", .object [("rate", .object [("type", .string "null")])]),
    ("type", .string "object"),
    ("properties", .object [("rate", .object [("$ref", .string "#/definitions/rate")]),
      ("unit", .object [("$ref", .string "units.json#/definitions/base-unit")])]),
    ("required", .array [.string "rate"])]

theorem references_bound_exchange :
    ∃ m, (generate exchangeOptions exchangeSchema).result = .ok m ∧
      m.helpers = [Helper.null.text, Helper.defined.text] ∧
      m.imports = ["import * as t from 'io-ts';", "import * as Units_ from './units';"] ∧
      ∃ declarations, List.Forall₂ Renders declarations m.blocks ∧
        Closed (exchangeOptions.scope []) declarations m := by
  have hgenerate : ∃ m, (generate exchangeOptions exchangeSchema).result = .ok m ∧
      m.helpers = [Helper.null.text, Helper.defined.text] ∧
      m.imports = ["import * as t from 'io-ts';", "import * as Units_ from './units';"] :=
    ⟨_, rfl, rfl, by decide⟩
  obtain ⟨m, hm, hhelpers, himports⟩ := hgenerate
  obtain ⟨mappings, definitions, hmappings, -, hrenders, hclosed⟩ := references_bound hm
  cases hmappings
  exact ⟨m, hm, hhelpers, himports, _, hrenders, hclosed⟩

end Module

end SchemaCodec
