import SchemaCodec.Proofs.Link.FaultPlaces
import SchemaCodec.Proofs.Meaning.Coverage

/-! The defaults that are put together for an endpoint are values of its codecs. -/

namespace SchemaCodec.Conversion

open Codec (Surroundings)
open Link

/-! Schemas of a few keywords -/

/-- The codec of a schema accepts a value, wherever the schema is converted. -/
def Takes (allowed : Event → Prop) (scope : Scope) (surroundings : Surroundings)
    (schema value : Document) : Prop :=
  ∀ isTop location codec, (compile scope isTop location schema).Gives allowed codec →
    codec.Accepts surroundings value

def plainKeywords : List String :=
  ["title", "description", "default", "type", "const", "properties", "required",
    "additionalProperties", "allOf"]

/-- What a schema of plain keywords asks of a value, where the schemas below it are met as given. -/
structure Meets (takes : Document → Document → Prop) (schema value : Document) : Prop where
  type : ∀ type, schema.get? "type" = some type →
    ∃ name, .string name ∈ type.oneOrMany ∧ value.HasType name
  const : ∀ item, schema.get? "const" = some item → item.Same value
  properties : ∀ map, schema.get? "properties" = some map → ∀ property ∈ map.members,
    ∀ piece, value.get? property.1 = some piece → takes property.2 piece
  additional : ∀ part, schema.get? "additionalProperties" = some part →
    ∀ member ∈ value.members, takes part member.2
  required : ∀ list, schema.get? "required" = some list →
    (∃ members, value = .object members) ∧ ∀ key, .string key ∈ list.items → value.has key = true
  allOf : ∀ list, schema.get? "allOf" = some list → ∀ part ∈ list.items, takes part value

section

variable {allowed : Event → Prop} {scope : Scope} {surroundings : Surroundings}
  {location : Location} {schema value : Document} {codecs : List Codec}

theorem Meets.object (h : Meets (Takes allowed scope surroundings) schema value)
    (htype : schema.get? "type" = some (.string "object")) :
    ∃ members, value = .object members := by
  obtain ⟨name, hname, hhas⟩ := h.type _ htype
  cases List.mem_singleton.mp hname
  exact hhas

theorem Meets.fromProperties (h : Meets (Takes allowed scope surroundings) schema value)
    (hgives : (fromProperties (compile scope false) location schema).Gives allowed codecs) :
    ∀ codec ∈ codecs, codec.Accepts surroundings value := by
  rcases gives_fromProperties.mp hgives with
    ⟨-, rfl⟩ | ⟨members, parts, htype, hmembers, hparts, rfl⟩
  · exact List.forall_mem_nil _
  · rw [List.forall_mem_singleton, accepts_propertiesCodec]
    refine ⟨h.object htype, ?_⟩
    intro part hpart piece hpiece
    obtain ⟨property, hproperty, hkey, hcodec⟩ :=
      exists_left_of_forall₂ (gives_convertMap.mp hparts) hpart
    rw [hkey] at hpiece
    exact h.properties _ hmembers property hproperty piece hpiece _ _ _ hcodec

theorem Meets.fromAdditionalProperties
    (h : Meets (Takes allowed scope surroundings) schema value)
    (hgives : (fromAdditionalProperties (compile scope false) location schema).Gives allowed
      codecs) : ∀ codec ∈ codecs, codec.Accepts surroundings value := by
  rcases gives_fromAdditionalProperties.mp hgives with
    ⟨-, rfl⟩ | ⟨-, -, rfl⟩ | ⟨part, codec, htype, hpart, -, hcodec, rfl⟩
  · exact List.forall_mem_nil _
  · exact List.forall_mem_nil _
  · rw [List.forall_mem_singleton, Codec.accepts_record]
    obtain ⟨members, rfl⟩ := h.object htype
    refine ⟨members, rfl, ?_⟩
    intro member hmember
    exact ⟨Codec.accepts_string.mpr ⟨member.1, rfl⟩,
      h.additional part hpart member hmember _ _ _ hcodec⟩

theorem Meets.fromRequired (h : Meets (Takes allowed scope surroundings) schema value)
    (hgives : (fromRequired location schema).Gives allowed codecs) :
    ∀ codec ∈ codecs, codec.Accepts surroundings value := by
  rcases gives_fromRequired.mp hgives with ⟨-, rfl⟩ | ⟨keys, hkeys, -, rfl⟩
  · exact List.forall_mem_nil _
  · rw [List.forall_mem_singleton, Codec.accepts_interface]
    obtain ⟨hobject, hpresent⟩ := h.required _ hkeys
    refine ⟨hobject, ?_⟩
    intro property hproperty
    obtain ⟨key, hkey, rfl⟩ := List.mem_map.mp hproperty
    obtain ⟨piece, hpiece⟩ :=
      Document.has_eq_true_iff.mp (hpresent key (List.mem_map_of_mem hkey))
    exact ⟨piece, hpiece, Codec.accepts_helper.mpr trivial⟩

private theorem Meets.fromAllOf (h : Meets (Takes allowed scope surroundings) schema value)
    (hgives : (fromAll (compile scope false) "allOf" location schema).Gives allowed codecs) :
    ∀ codec ∈ codecs, codec.Accepts surroundings value := by
  rcases gives_fromAll.mp hgives with ⟨-, rfl⟩ | ⟨schemas, hschemas, hcodecs⟩
  · exact List.forall_mem_nil _
  · intro codec hcodec
    obtain ⟨part, hpart, place, hplace⟩ :=
      exists_left_of_forall₂ (gives_of_convertList hcodecs) hcodec
    exact h.allOf _ hschemas part hpart _ _ _ hplace

theorem Meets.fromObject (h : Meets (Takes allowed scope surroundings) schema value)
    (hnames : schema.get? "propertyNames" = none)
    (hpatterns : schema.get? "patternProperties" = none)
    (hgives : (fromObject (compile scope false) location schema).Gives allowed codecs) :
    ∀ codec ∈ codecs, codec.Accepts surroundings value := by
  obtain ⟨properties, names, patterns, others, required, hproperties, hnamed, hmatched, hothers,
    hrequired, rfl⟩ := gives_fromObject.mp hgives
  have hnonames : names = [] := (fromPropertyNames_eq_nil_iff hnamed).mpr hnames
  have hnopatterns : patterns = [] :=
    (fromPatternProperties_eq_nil_iff hmatched).mpr (.inl hpatterns)
  rw [hnonames, hnopatterns, List.append_nil, List.append_nil, List.forall_mem_append,
    forall_mem_intersect_accepts, List.forall_mem_append]
  exact ⟨⟨h.fromProperties hproperties, h.fromAdditionalProperties hothers⟩,
    h.fromRequired hrequired⟩

/-- A schema of plain keywords takes what meets it. -/
theorem takes_of_meets (hobject : schema.isObject = true)
    (hkeys : ∀ key ∈ schema.keys, key ∈ plainKeywords)
    (h : Meets (Takes allowed scope surroundings) schema value) :
    Takes allowed scope surroundings schema value := by
  intro isTop location codec hgives
  have habsent : ∀ keyword, keyword ∉ plainKeywords → schema.get? keyword = none :=
    fun keyword hkeyword =>
      Document.get?_eq_none_of_not_mem fun hkey => hkeyword (hkeys keyword hkey)
  cases schema with
  | object members =>
      obtain ⟨-, -, parts, hcompose⟩ :=
        (gives_compile_object (habsent "$ref" (by decide))).mp hgives
      have hitems := (gives_fromArray.mp parts.gives_array).1
      have harray := (fromItems_eq_nil_iff hitems).mpr (.inl (habsent _ (by decide)))
      have henum := (fromEnum_eq_nil_iff parts.gives_enum).mpr (.inl (habsent _ (by decide)))
      have hanyOf := (fromAll_eq_nil_iff parts.gives_anyOf).mpr (.inl (habsent _ (by decide)))
      have honeOf := (fromAll_eq_nil_iff parts.gives_oneOf).mpr (.inl (habsent _ (by decide)))
      have htypes : ∀ codec ∈ parts.types, codec.Accepts surroundings value :=
        fromType_accepts parts.gives_types (type_of_hasObjectShape parts.gives_object)
          (type_of_hasArrayShape hitems) h.type
      have hobjects := h.fromObject (habsent "propertyNames" (by decide))
        (habsent "patternProperties" (by decide)) parts.gives_object
      rw [accepts_of_gives_compose hcompose]
      simp only [Contributions.all, harray, henum, hanyOf, honeOf, unite, List.append_nil,
        List.forall_mem_append, forall_mem_intersect_accepts]
      exact ⟨⟨⟨htypes, hobjects⟩, fromConst_accepts parts.gives_const h.const⟩,
        h.fromAllOf parts.gives_allOf⟩
  | _ => cases hobject

private theorem takes_bool_true : Takes allowed scope surroundings (.bool true) value := by
  intro isTop location codec hgives
  rw [(gives_compile_bool.mp hgives).2]
  exact Codec.accepts_unknown

/-! The schemas of an endpoint -/

/-- A constant text takes itself. -/
theorem takes_constant {text : String} (hobject : schema.isObject = true)
    (hkeys : ∀ key ∈ schema.keys, key ∈ ["title", "description", "default", "type", "const"])
    (htype : schema.get? "type" = some (.string "string"))
    (hconst : schema.get? "const" = some (.string text)) :
    Takes allowed scope surroundings schema (.string text) := by
  have habsent : ∀ keyword, keyword ∉ ["title", "description", "default", "type", "const"] →
      schema.get? keyword = none := fun keyword hkeyword =>
    Document.get?_eq_none_of_not_mem fun hkey => hkeyword (hkeys keyword hkey)
  have hplain : ∀ key ∈ ["title", "description", "default", "type", "const"],
      key ∈ plainKeywords := by decide
  refine takes_of_meets hobject (fun key hkey => hplain key (hkeys key hkey)) ?_
  refine ⟨?_, ?_, ?_, ?_, ?_, ?_⟩
  · intro type hfound
    cases htype.symm.trans hfound
    exact ⟨"string", List.mem_singleton_self _, text, rfl⟩
  · intro item hfound
    cases hconst.symm.trans hfound
    exact Document.same_string.mpr rfl
  · simp [habsent "properties" (by decide)]
  · simp [habsent "additionalProperties" (by decide)]
  · simp [habsent "required" (by decide)]
  · simp [habsent "allOf" (by decide)]

private theorem takes_constantHeader {text : String} :
    Takes allowed scope surroundings (constantHeader text) (.string text) := by
  have hkeys : ∀ key ∈ ["type", "const"],
      key ∈ ["title", "description", "default", "type", "const"] := by decide
  exact takes_constant rfl hkeys rfl rfl

variable {hints : List (String × String)}

private theorem takes_type_string {text : String} :
    Takes allowed scope surroundings (.object [("type", .string "string")]) (.string text) := by
  refine takes_of_meets rfl (by decide) ⟨?_, nofun, nofun, nofun, nofun, nofun⟩
  rintro type ⟨⟩
  exact ⟨"string", List.mem_singleton_self _, text, rfl⟩

private theorem takes_headerTypes :
    Takes allowed scope surroundings headerTypes (headersOf hints) := by
  refine takes_of_meets rfl (by decide) ⟨?_, nofun, nofun, ?_, nofun, nofun⟩
  · rintro type ⟨⟩
    exact ⟨"object", List.mem_singleton_self _, _, rfl⟩
  · rintro part ⟨⟩ member hmember
    obtain ⟨hint, -, rfl⟩ := List.mem_map.mp hmember
    exact takes_type_string

private theorem takes_givenHeaders (hnodup : (hints.map Prod.fst).Nodup) :
    Takes allowed scope surroundings
      (givenHeaders (hints.map fun hint => (hint.1, constantHeader hint.2))) (headersOf hints) := by
  have hkeys : ∀ key ∈ ["type", "properties", "required", "additionalProperties"],
      key ∈ plainKeywords := by decide
  refine takes_of_meets rfl hkeys ⟨?_, nofun, ?_, ?_, ?_, nofun⟩
  · rintro type ⟨⟩
    exact ⟨"object", List.mem_singleton_self _, _, rfl⟩
  · rintro map ⟨⟩ property hproperty piece hpiece
    obtain ⟨hint, hhint, rfl⟩ := List.mem_map.mp hproperty
    obtain ⟨other, hother, heq⟩ := List.mem_map.mp (Document.mem_members_of_get? hpiece)
    obtain ⟨hkey, rfl⟩ := Prod.mk.inj heq
    -- No key stands twice, so that the value found under it is the one of its schema.
    cases List.inj_on_of_nodup_map hnodup hother hhint hkey
    exact takes_constantHeader
  · rintro part ⟨⟩ member -
    exact takes_bool_true
  · rintro list ⟨⟩
    refine ⟨⟨_, rfl⟩, ?_⟩
    intro key hkey
    obtain ⟨property, hproperty, hname⟩ := List.mem_map.mp hkey
    obtain ⟨hint, hhint, rfl⟩ := List.mem_map.mp hproperty
    cases hname
    apply Document.has_eq_true_iff.mpr
    apply Document.exists_get?_of_mem_keys
    exact List.mem_map.mpr ⟨(hint.1, .string hint.2), List.mem_map_of_mem hhint, rfl⟩

/-- The headers of an answer take the values that they are made of. -/
theorem takes_headers (title description : String) (default : Document)
    (hnodup : (hints.map Prod.fst).Nodup) :
    Takes allowed scope surroundings
      (.object (headersSchema title description
        (hints.map fun hint => (hint.1, constantHeader hint.2)) ++ [("default", default)]))
      (headersOf hints) := by
  have hkeys : ∀ key ∈ ["title", "description", "allOf", "default"], key ∈ plainKeywords := by
    decide
  refine takes_of_meets rfl hkeys ⟨nofun, nofun, nofun, nofun, nofun, ?_⟩
  rintro list ⟨⟩
  intro part hpart
  rcases List.mem_cons.mp hpart with rfl | hpart
  · exact takes_headerTypes
  · rw [List.mem_singleton.mp hpart]
    exact takes_givenHeaders hnodup

end

end SchemaCodec.Conversion

namespace SchemaCodec.Metadata

private theorem default_of_ofSchema {location : Location} {schema : Document} {metadata : Metadata}
    (hobject : schema.isObject = true) (href : schema.has "$ref" = false)
    (h : ofSchema location schema = .ok metadata) : metadata.default = schema.get? "default" := by
  unfold ofSchema at h
  rw [hobject, href] at h
  obtain ⟨title, -, h⟩ := exists_of_bind_eq_ok h
  obtain ⟨description, -, h⟩ := exists_of_bind_eq_ok h
  obtain ⟨examples, -, h⟩ := exists_of_bind_eq_ok h
  obtain ⟨invalid, -, h⟩ := exists_of_bind_eq_ok h
  cases h
  rfl

end SchemaCodec.Metadata

namespace SchemaCodec.Link

open Conversion
open Codec (Surroundings)

/-! The definitions of an endpoint -/

variable {allowed : Event → Prop} {scope : Scope} {surroundings : Surroundings} {index : Nat}
  {link : Document}

/-- A definition of the given name has a default, and its codec, which is not constrained any
further, accepts it. -/
structure AcceptsDefault (surroundings : Surroundings) (definition : Definition) (name : String)
    (value : Document) : Prop where
  named : definition.name = name
  default : definition.metadata.default = some value
  accepts : ∃ inner, definition.declaration.type = .brand inner (.constant true) name ∧
    inner.Accepts surroundings value

private theorem synthesize_of_gives {schema : Document} {found : Condition}
    (h : (condition schema).Gives allowed found) : Constraint.synthesize schema = .ok found := by
  unfold condition at h
  split at h
  · next hfound =>
      simp only [gives_bind, gives_return] at h
      obtain ⟨-, -, rfl⟩ := h
      exact hfound
  · exact (gives_stop.mp h).elim

private theorem acceptsDefault_of_define {part : Section} {definition : Definition}
    {schema value : Document} (h : (define scope index part).Gives allowed definition)
    (hpart : part.schema = .ok schema) (hheading : part.heading = none)
    (hobject : schema.isObject = true) (href : schema.has "$ref" = false)
    (hfree : Constraint.synthesize schema = .ok (.constant true))
    (hdefault : schema.get? "default" = some value)
    (htakes : Takes allowed scope surroundings schema value) :
    AcceptsDefault surroundings definition ("_links_implementation_" ++ part.suffix) value := by
  unfold define at h
  simp only [gives_bind, gives_ofExcept, hpart, hheading, gives_return, brand] at h
  obtain ⟨found, hfound, metadata, hmetadata, inner, hinner, codec, ⟨condition, hcondition, rfl⟩,
    rfl⟩ := h
  cases hfound
  cases hfree.symm.trans (synthesize_of_gives hcondition)
  refine ⟨rfl, ?_, inner, rfl, htakes _ _ _ hinner⟩
  exact (Metadata.default_of_ofSchema hobject href hmetadata).trans hdefault

variable {check : String → Except Template.Error Unit} {root : Document}
  {definitions : List Definition}

private theorem filter_of_implementations {links : List Document} {rest : List (Document × Nat)}
    (h : implementations links = (link, index) :: rest) :
    links.filter isImplementation = link :: rest.map Prod.fst := by
  calc
    links.filter isImplementation = (links.zipIdx.map Prod.fst).filter isImplementation := by
      rw [List.zipIdx_map_fst]
    _ = (implementations links).map Prod.fst := List.filter_map ..
    _ = link :: rest.map Prod.fst := congrArg (List.map Prod.fst) h

private theorem gives_expandBy (h : (expandBy check scope root).Gives allowed definitions)
    (hne : definitions ≠ []) :
    ∃ links link index, root.get? "links" = some (.array links) ∧
      links.filter isImplementation = [link] ∧
      List.Forall₂ (fun part definition => (define scope index part).Gives allowed definition)
        (sections check index link) definitions := by
  unfold expandBy at h
  split at h
  · exact absurd (gives_pure.mp h).symm hne
  · next links hlinks =>
      unfold expandLinks at h
      dsimp only at h
      split at h
      · simp only [gives_bind, gives_return] at h
        obtain ⟨-, -, h⟩ := h
        exact absurd h.symm hne
      · next hsingle =>
          replace h := gives_of_reportIf h
          split at h
          · exact absurd (gives_return.mp h).symm hne
          · next link index rest hfound =>
              simp only [gives_bind] at h
              obtain ⟨-, -, h⟩ := h
              have hrest : rest = [] := by
                rw [hfound] at hsingle
                simpa using hsingle
              rw [hrest] at hfound
              exact ⟨links, link, index, hlinks, filter_of_implementations hfound, gives_each.mp h⟩
  · exact (gives_stop.mp h).elim

/-! Address and answer -/

def hintLines (members : List (String × Document)) : List (String × String) :=
  members.map fun member => (member.1, hintText member.2.items)

private theorem hint_eq {member : String × Document} {found : String × String}
    (h : hint index member = .ok found) : (member.1, hintText member.2.items) = found := by
  unfold hint at h
  split at h
  · cases h
    rfl
  · cases h

private theorem hints_eq {members : List (String × Document)} {hints : List (String × String)}
    (h : members.mapM (hint index) = .ok hints) : hintLines members = hints := by
  have hsame := (forall₂_of_mapM h).imp fun _ _ => hint_eq
  rwa [← List.forall₂_map_left_iff, List.forall₂_eq_eq_eq] at hsame

private theorem exists_hints {schema : Document} (h : responseHeaders index link = .ok schema) :
    ∃ members, link.get? "targetHints" = some (.object members) ∧
      schema = .object (headersSchema "Response Headers"
        "Response headers format as described by hyper schema targetHints."
        ((hintLines members).map fun line => (line.1, constantHeader line.2)) ++
        [("default", headersOf (hintLines members))]) := by
  obtain ⟨members, hmembers, h⟩ := exists_of_bind_eq_ok h
  obtain ⟨hints, hhints, h⟩ := exists_of_bind_eq_ok h
  cases h
  refine ⟨members, get?_of_memberMap hmembers, ?_⟩
  rw [hints_eq hhints]

private theorem nodup_hintLines {members : List (String × Document)}
    (h : ¬ (Document.object members).RepeatsKey) : ((hintLines members).map Prod.fst).Nodup := by
  rw [hintLines, List.map_map]
  exact Document.keys_nodup h

private theorem address_acceptsDefault {definition : Definition}
    (h : (define scope index ⟨"href", "Href", addressSchema check index link, none⟩).Gives allowed
      definition) :
    ∃ template, link.get? "href" = some (.string template) ∧
      AcceptsDefault surroundings definition "_links_implementation_Href" (.string template) := by
  obtain ⟨schema, hschema, -⟩ := gives_bind.mp h
  replace hschema : addressSchema check index link = .ok schema := gives_ofExcept.mp hschema
  obtain ⟨template, htemplate, rfl⟩ := exists_template hschema
  have hkeys : ∀ key ∈ ["title", "description", "type", "const", "default"],
      key ∈ ["title", "description", "default", "type", "const"] := by decide
  refine ⟨template, htemplate, ?_⟩
  exact acceptsDefault_of_define h hschema rfl rfl rfl rfl rfl (takes_constant rfl hkeys rfl rfl)

private theorem answer_acceptsDefault {definition : Definition} (hlink : ¬ link.RepeatsKey)
    (h : (define scope index
      ⟨"targetHints", "TargetHints", responseHeaders index link, none⟩).Gives allowed definition) :
    ∃ members, link.get? "targetHints" = some (.object members) ∧
      AcceptsDefault surroundings definition "_links_implementation_TargetHints"
        (headersOf (hintLines members)) := by
  obtain ⟨schema, hschema, -⟩ := gives_bind.mp h
  replace hschema : responseHeaders index link = .ok schema := gives_ofExcept.mp hschema
  obtain ⟨members, hmembers, rfl⟩ := exists_hints hschema
  have hnodup := nodup_hintLines fun hrepeats => hlink (.of_get? hmembers hrepeats)
  refine ⟨members, hmembers, ?_⟩
  exact acceptsDefault_of_define h hschema rfl rfl rfl rfl rfl (takes_headers _ _ _ hnodup)

/-- The defaults of the address and of the headers of the answer are values of their codecs,
whatever check the address has passed. -/
theorem defaults_are_accepted (surroundings : Surroundings) (hkeys : ¬ root.RepeatsKey)
    (hexpand : (expandBy check scope root).result = .ok definitions) (hlink : definitions ≠ []) :
    expandBy Template.check scope root = expand scope root ∧
    ∃ links link template hints address query request body headers answer,
      root.get? "links" = some (.array links) ∧ links.filter isImplementation = [link] ∧
      link.get? "href" = some (.string template) ∧
      link.get? "targetHints" = some (.object hints) ∧
      definitions = [address, query, request, body, headers, answer] ∧
      AcceptsDefault surroundings address "_links_implementation_Href" (.string template) ∧
      AcceptsDefault surroundings headers "_links_implementation_TargetHints"
        (.object (hints.map fun hint => (hint.1, .string (hintText hint.2.items)))) := by
  refine ⟨rfl, ?_⟩
  obtain ⟨links, link, index, hlinks, hfilter, hparts⟩ :=
    gives_expandBy (gives_anything_iff.mpr hexpand) hlink
  have hnorepeat : ¬ link.RepeatsKey := by
    intro hrepeats
    have hmem : link ∈ links := by
      have hfirst : link ∈ links.filter isImplementation := by
        rw [hfilter]
        exact List.mem_singleton_self link
      exact (List.mem_filter.mp hfirst).1
    exact hkeys (.of_get? hlinks (.of_mem_items hmem hrepeats))
  rcases hparts with _ | ⟨haddress, _ | ⟨hquery, _ | ⟨hrequest, _ | ⟨hbody, _ | ⟨hheaders,
    _ | ⟨hanswer, hrest⟩⟩⟩⟩⟩⟩
  cases hrest
  obtain ⟨template, htemplate, haddress⟩ := address_acceptsDefault haddress
  obtain ⟨hints, hhints, hheaders⟩ := answer_acceptsDefault hnorepeat hheaders
  refine ⟨links, link, template, hints, _, _, _, _, _, _, hlinks, hfilter, htemplate, hhints, rfl,
    haddress, ?_⟩
  rw [headersOf, hintLines, List.map_map] at hheaders
  exact hheaders

/-- An endpoint beside another link, with hints that are not all strings. -/
def stallRoot : Document :=
  .object [("links", .array [
    .object [("rel", .string "self"), ("href", .string "/")],
    .object [
      ("rel", .string "implementation"),
      ("href", .string "/stall/\x7bid\x7d"),
      ("hrefSchema", .bool true),
      ("headerSchema", .object []),
      ("submissionSchema", .bool true),
      ("targetHints", .object [
        ("Allow", .array [.string "GET", .string "PUT"]),
        ("Retry-After", .array [.number "120", .null])]),
      ("targetSchema", .bool true)]])]

def stallScope : Scope :=
  ⟨false, ⟨"", "stall.json", [], 0, "sha256"⟩⟩

theorem defaults_are_accepted_stallRoot :
    ¬ stallRoot.RepeatsKey ∧ ∃ definitions,
      (expandBy Template.check stallScope stallRoot).result = .ok definitions ∧
      definitions ≠ [] ∧
      expandBy Template.check stallScope stallRoot = expand stallScope stallRoot ∧
      ∃ address query request body headers answer,
        definitions = [address, query, request, body, headers, answer] ∧
        AcceptsDefault ⟨fun _ _ => False, fun _ _ => False⟩ address "_links_implementation_Href"
          (.string "/stall/\x7bid\x7d") ∧
        AcceptsDefault ⟨fun _ _ => False, fun _ _ => False⟩ headers
          "_links_implementation_TargetHints"
          (.object [("Allow", .string "GET, PUT"), ("Retry-After", .string "120, null")]) := by
  have hkeys : ¬ stallRoot.RepeatsKey := (Document.searched stallRoot []).mp rfl
  have hexpand : ∃ definitions,
      (expandBy Template.check stallScope stallRoot).result = .ok definitions ∧
      definitions ≠ [] :=
    ⟨_, rfl, List.cons_ne_nil _ _⟩
  obtain ⟨definitions, hexpand, hlink⟩ := hexpand
  obtain ⟨hcheck, links, link, template, hints, address, query, request, body, headers, answer,
    hlinks, hfilter, htemplate, hhints, hdefinitions, haddress, hheaders⟩ :=
    defaults_are_accepted ⟨fun _ _ => False, fun _ _ => False⟩ hkeys hexpand hlink
  cases hlinks
  cases hfilter
  cases htemplate
  cases hhints
  exact ⟨hkeys, definitions, hexpand, hlink, hcheck, address, query, request, body, headers,
    answer, hdefinitions, haddress, hheaders⟩

end SchemaCodec.Link
