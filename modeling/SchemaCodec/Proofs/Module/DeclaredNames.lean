import SchemaCodec.Proofs.Conversion.Exports
import SchemaCodec.Proofs.Module.Bindings
import SchemaCodec.Proofs.Module.Origins

namespace SchemaCodec

/-! The names that a module declares, and that references from other documents find them. -/

namespace Link

private theorem exportless_expand (scope : Scope) (root : Document) :
    (expand scope root).Exportless := by
  have hdefine : ∀ index part, (define scope index part).Exportless := by
    intro index part
    apply Conversion.exportless_bind (Conversion.exportless_ofExcept _)
    intro schema
    apply Conversion.exportless_bind (Conversion.exportless_ofExcept _)
    intro metadata
    apply Conversion.exportless_bind (Conversion.exportless_compile ..)
    intro inner
    apply Conversion.exportless_bind (Conversion.exportless_brand ..)
    intro codec
    split <;> rfl
  have hlinks : ∀ links, (expandLinks Template.check scope links).Exportless := by
    intro links
    unfold expandLinks
    simp only
    split
    · rfl
    · apply Conversion.exportless_reportIf
      split
      · rfl
      · exact Conversion.exportless_bind rfl fun _ => Conversion.exportless_each (hdefine _) _
  unfold expand expandBy
  split
  · rfl
  · exact hlinks _
  · rfl

end Link

namespace Module

open Conversion

variable {scope : Scope} {schema : Document} {defaultName : String}

private theorem exportless_namedDefinitions (scope : Scope) (schema : Document) :
    (namedDefinitions scope schema).Exportless := by
  unfold namedDefinitions
  split
  · rfl
  · exact exportless_each (fun member => exportless_define ..) _
  · rfl

private theorem exportless_blocksOf (definitions : List Definition) :
    (blocksOf definitions).Exportless := by
  apply exportless_each
  intro declaration
  apply exportless_bind (exportless_ofExcept _)
  intro b
  apply exportless_reportIf
  split <;> rfl

def definitionKeys (schema : Document) : List String :=
  (schema.get? "definitions").elim [] Document.keys

def definedNames (schema : Document) : List String :=
  (definitionKeys schema).map Name.ofKebab

def endpointNames : List String :=
  ["_links_implementation_Href", "_links_implementation_HrefSchema",
   "_links_implementation_HeaderSchema", "_links_implementation_SubmissionSchema",
   "_links_implementation_TargetHints", "_links_implementation_TargetSchema"]

/-- The document describes one implementation and no other. -/
def HasEndpoint (schema : Document) : Prop :=
  ((schema.get? "links").elim [] Document.items).countP Link.isImplementation = 1

instance : Decidable (HasEndpoint schema) :=
  inferInstanceAs (Decidable (_ = _))

/-- The names that the definitions of a document go by. -/
def declaredNames (schema : Document) (defaultName : String) : List String :=
  if defaultName ∈ definedNames schema then definedNames schema
  else definedNames schema ++ defaultName :: (if HasEndpoint schema then endpointNames else [])

private theorem ofKebab_mem_declaredNames {key : String} (defaultName : String)
    (h : key ∈ definitionKeys schema) : Name.ofKebab key ∈ declaredNames schema defaultName := by
  have hnamed : Name.ofKebab key ∈ definedNames schema := List.mem_map_of_mem h
  unfold declaredNames
  split
  · exact hnamed
  · exact List.mem_append_left _ hnamed

private theorem fileName_mem_declaredNames (schema : Document) (defaultName : String) :
    defaultName ∈ declaredNames schema defaultName := by
  unfold declaredNames
  split
  · next hmem => exact hmem
  · exact List.mem_append_right _ (List.mem_cons_self ..)

private theorem names_namedOrigins (schema : Document) :
    (namedOrigins schema).map Origin.name = definedNames schema := by
  unfold namedOrigins definedNames definitionKeys
  rw [List.map_map]
  cases schema.get? "definitions" with
  | none => rfl
  | some definitions =>
      change _ = (definitions.members.map Prod.fst).map Name.ofKebab
      rw [List.map_map]
      rfl

private theorem names_originsOf (links : List Document) :
    (Link.originsOf links).map Origin.name =
      if links.countP Link.isImplementation = 1 then endpointNames else [] := by
  have hcount : (Link.implementations links).length = links.countP Link.isImplementation := by
    calc (Link.implementations links).length
        = links.zipIdx.countP (Link.isImplementation ∘ Prod.fst) :=
          List.countP_eq_length_filter.symm
      _ = (links.zipIdx.map Prod.fst).countP Link.isImplementation := List.countP_map.symm
      _ = links.countP Link.isImplementation := by rw [List.zipIdx_map_fst]
  unfold Link.originsOf
  rw [← hcount]
  split
  · next hone =>
      rw [hone, List.length_singleton, if_pos rfl]
      rfl
  · next hother =>
      rw [if_neg, List.map_nil]
      intro hlength
      obtain ⟨⟨link, index⟩, hone⟩ := List.length_eq_one_iff.mp hlength
      exact hother link index hone

private theorem names_origins (schema : Document) (defaultName : String) :
    (origins schema defaultName).map Origin.name = declaredNames schema defaultName := by
  unfold origins declaredNames
  simp only [names_namedOrigins]
  split
  · exact names_namedOrigins schema
  · rw [List.map_append, List.map_cons, names_namedOrigins, names_originsOf]
    rfl

def exportStatement (name : String) : String :=
  "export default " ++ name ++ ";"

private theorem exports_collect {definitions : List Definition}
    (h : (collect scope defaultName schema).result = .ok definitions) :
    (collect scope defaultName schema).exports =
      if defaultName ∈ definedNames schema then []
      else [exportStatement defaultName] := by
  have hgives := gives_anything_iff.mpr h
  simp only [collect, gives_bind] at hgives
  obtain ⟨named, hnamed, -⟩ := hgives
  have hnames := names_of_defines (defines_namedDefinitions hnamed)
  rw [names_namedOrigins] at hnames
  unfold collect
  rw [exports_bind hnamed.result, exportless_namedDefinitions, List.nil_append, ← hnames]
  by_cases hclash : defaultName ∈ named.map Definition.name
  · rw [if_pos hclash, if_pos (by simpa using hclash)]
    rfl
  · rw [if_neg hclash, if_neg (by simpa using hclash)]
    -- What comes behind the request for the default asks for no other.
    have hrest : Exportless (do
        let root ← defineRoot scope defaultName schema
        let endpoint ← Link.expand scope schema
        return named ++ root :: endpoint) := by
      apply exportless_bind (exportless_defineRoot ..)
      intro root
      exact exportless_bind (Link.exportless_expand ..) fun endpoint => rfl
    refine exports_reportIf.trans ?_
    exact congrArg (exportStatement defaultName :: ·) hrest

private theorem exports_of_generate {options : Options} {m : Module}
    (h : (generate options schema).result = .ok m) :
    m.exports =
      if Name.ofFilePath options.inputFile ∈ definedNames schema then []
      else [exportStatement (Name.ofFilePath options.inputFile)] := by
  obtain ⟨mappings, events, blocks, -, hleaves, -, rfl⟩ := exists_leaves_of_generate h
  have hgives := gives_anything_iff.mpr hleaves.result
  simp only [convert, gives_bind] at hgives
  obtain ⟨definitions, hcollect, -⟩ := hgives
  have hexports : (convert (options.scope mappings) options.inputFile schema).exports = _ :=
    exports_bind hcollect.result
  rw [exports_collect hcollect.result, exportless_blocksOf, List.append_nil] at hexports
  rw [Conversion.exports, hleaves.events] at hexports
  change (OrderedSet.addAll ∅ ((events.filterMap Event.requirement?).filterMap
    Requirement.exportText?)).values = _
  rw [hexports]
  split <;> rfl

/-- A module declares the definitions its document names, and unless one of them has the name of the
file, also the root under that name, as the default, and the parts of the endpoint. A reference to
the file or to one of its definitions parses to a name that is declared. -/
theorem references_name_declarations (options : Options) (schema : Document) (m : Module)
    (h : (generate options schema).result = .ok m) :
    let fileName := Name.ofFilePath options.inputFile
    m.names.Perm (declaredNames schema fileName) ∧
    (m.exports = if fileName ∈ definedNames schema then []
      else [exportStatement fileName]) ∧
    fileName ∈ m.names ∧
    ∀ file : String, '#' ∉ file.toList →
      Text.afterLast '/' file.toList = Text.afterLast '/' options.inputFile.toList →
      Reference.parse file = .ok ⟨file, fileName⟩ ∧
      ∀ key ∈ definitionKeys schema, '/' ∉ key.toList → '#' ∉ key.toList →
        Reference.parse (file ++ "#/definitions/" ++ key) = .ok ⟨file, Name.ofKebab key⟩ ∧
        Name.ofKebab key ∈ m.names := by
  intro fileName
  have hnames : m.names.Perm (declaredNames schema fileName) := by
    obtain ⟨mappings, definitions, -, hcollect, hnames⟩ := exists_of_generate h
    rw [hnames, ← names_origins]
    exact names_perm_of_defines (defines_collect hcollect)
  refine ⟨hnames, exports_of_generate h, ?_, ?_⟩
  · exact hnames.mem_iff.mpr (fileName_mem_declaredNames schema fileName)
  · intro file hhash hsegment
    have hfile : Name.ofFilePath file = fileName := by
      change String.ofList (Name.joinAny (Name.stemOf (Text.afterLast '/' file.toList))) = _
      rw [hsegment]
      rfl
    refine ⟨hfile ▸ Reference.parse_file hhash, ?_⟩
    intro key hkey hslash hkeyHash
    refine ⟨Reference.parse_definitionOf hhash hslash hkeyHash, ?_⟩
    exact hnames.mem_iff.mpr (ofKebab_mem_declaredNames fileName hkey)

def shelfOptions : Options :=
  ⟨[], "", "stock/shelf.json", "", 0, "", false, false⟩

def shelfSchema : Document :=
  .object [
    ("definitions", .object [("top-row", .object [("type", .string "string")])]),
    ("type", .string "object"),
    ("links", .array [.object [
      ("rel", .string "implementation"), ("href", .string "/shelf"), ("hrefSchema", .bool true),
      ("headerSchema", .object []), ("submissionSchema", .bool true),
      ("targetHints", .object []), ("targetSchema", .bool true)]])]

theorem references_name_declarations_shelf :
    ∃ m, (generate shelfOptions shelfSchema).result = .ok m ∧
      m.names.Perm ("TopRow" :: "Shelf" :: endpointNames) ∧
      m.exports = ["export default Shelf;"] ∧
      Reference.parse "../shelf.json" = .ok ⟨"../shelf.json", "Shelf"⟩ ∧
      Reference.parse "../shelf.json#/definitions/top-row" = .ok ⟨"../shelf.json", "TopRow"⟩ ∧
      "TopRow" ∈ m.names := by
  have hgenerate : ∃ m, (generate shelfOptions shelfSchema).result = .ok m := ⟨_, rfl⟩
  obtain ⟨m, hm⟩ := hgenerate
  obtain ⟨hnames, hexports, -, hreferences⟩ :=
    references_name_declarations shelfOptions shelfSchema m hm
  obtain ⟨hfile, hkeys⟩ := hreferences "../shelf.json" (by decide) (by decide)
  obtain ⟨hkey, hmem⟩ := hkeys "top-row" (by decide) (by decide) (by decide)
  have hdeclared : declaredNames shelfSchema (Name.ofFilePath shelfOptions.inputFile) =
    "TopRow" :: "Shelf" :: endpointNames := by decide
  exact ⟨m, hm, hdeclared ▸ hnames, hexports, hfile, hkey, hmem⟩

end Module

end SchemaCodec
