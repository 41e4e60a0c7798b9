import SchemaCodec.Proofs.Codec.Distinct
import SchemaCodec.Proofs.Module.Generation
import SchemaCodec.Proofs.Order.Walk

namespace SchemaCodec

open Relation

/-! In a module, no declaration is used before it is made, as far as there is no cycle. -/

namespace Codec

private theorem mem_dependencies {codec : Codec} {name : String} :
    name ∈ codec.dependencies ↔ name ∈ codec.references := by
  rw [dependencies, mem_distinctBy]

end Codec

namespace Declaration

/-- A declaration depends on a name, and the other is the first declaration of that name. -/
def DependsOn (declarations : List Declaration) (i j : Nat) : Prop :=
  ∃ declaration name, declarations[i]? = some declaration ∧
    name ∈ declaration.type.dependencies ∧
    declarations.findIdx? (fun other => other.name == name) = some j

theorem mem_targets {declarations : List Declaration} {i j : Nat} :
    j ∈ targets declarations i ↔ DependsOn declarations i j ∧ j ≠ i := by
  unfold targets DependsOn
  cases hget : declarations[i]? with
  | none => simp
  | some declaration => simp

theorem lt_length_of_mem_order {declarations : List Declaration} {i : Nat}
    (h : i ∈ order declarations) : i < declarations.length :=
  List.mem_range.mp ((order_perm declarations).mem_iff.mp h)

theorem map_some_sort (declarations : List Declaration) :
    (sort declarations).map some = (order declarations).map fun i => declarations[i]? := by
  have hrange : ∀ i ∈ order declarations, i < declarations.length :=
    fun i => lt_length_of_mem_order
  unfold sort
  generalize order declarations = positions at hrange
  induction positions with
  | nil => rfl
  | cons first rest ih =>
      obtain ⟨hfirst, hrest⟩ := List.forall_mem_cons.mp hrange
      rw [List.filterMap_cons, List.getElem?_eq_getElem hfirst]
      simp only [List.map_cons, ih hrest, List.getElem?_eq_getElem hfirst]

theorem getElem?_sort (declarations : List Declaration) (p : Nat) :
    (sort declarations)[p]? = (order declarations)[p]?.bind fun i => declarations[i]? := by
  have hsort := congrArg (fun list => list[p]?) (map_some_sort declarations)
  simp only [List.getElem?_map] at hsort
  cases hget : (order declarations)[p]? with
  | none =>
      rw [hget] at hsort
      simpa using hsort
  | some i =>
      rw [hget] at hsort
      cases hfound : (sort declarations)[p]? with
      | none =>
          rw [hfound] at hsort
          cases hsort
      | some declaration =>
          rw [hfound] at hsort
          exact Option.some.inj hsort

def Precedes (order : List Nat) (i j : Nat) : Prop :=
  ∃ p q : Nat, p < q ∧ order[p]? = some i ∧ order[q]? = some j

theorem precedes_of_mem_front {before after : List Nat} {i j : Nat} (h : j ∈ before) :
    Precedes (before ++ i :: after) j i := by
  obtain ⟨p, hp, hget⟩ := List.mem_iff_getElem.mp h
  refine ⟨p, before.length, hp, ?_, ?_⟩
  · rw [List.getElem?_append_left hp, List.getElem?_eq_getElem hp, hget]
  · rw [List.getElem?_append_right (Nat.le_refl _), Nat.sub_self]
    rfl

theorem lt_length_of_dependsOn {declarations : List Declaration} {i j : Nat}
    (h : DependsOn declarations i j) : i < declarations.length := by
  obtain ⟨declaration, -, hget, -⟩ := h
  exact (List.getElem?_eq_some_iff.mp hget).1

/-- A declaration is made behind one it depends on, unless that one leads back to it. -/
theorem order_before {declarations : List Declaration} {i j : Nat}
    (h : DependsOn declarations i j) (hne : j ≠ i) :
    TransGen (DependsOn declarations) j i ∨ Precedes (order declarations) j i := by
  have hi := lt_length_of_dependsOn h
  rcases order_settled (mem_targets.mpr ⟨h, hne⟩) hi with hcycle | ⟨before, after, horder, hbefore⟩
  · exact .inl (hcycle.lift id fun i j hj => (mem_targets.mp hj).1)
  · rw [horder]
    exact .inr (precedes_of_mem_front hbefore)

end Declaration

namespace Module

open Conversion

private theorem exists_index_of_mem_names {m : Module} {definitions : List Definition}
    {name : String}
    (hnames : m.names = (Declaration.sort (definitions.map Definition.declaration)).map
      Declaration.name) (h : name ∈ m.names) :
    ∃ j, definitions.findIdx? (fun definition => definition.name == name) = some j := by
  rw [hnames] at h
  obtain ⟨declaration, hdeclaration, rfl⟩ := List.mem_map.mp h
  obtain ⟨i, -, hget⟩ := List.mem_filterMap.mp hdeclaration
  obtain ⟨definition, hdefinition, rfl⟩ := List.mem_map.mp (List.mem_of_getElem? hget)
  exact ⟨_, List.findIdx?_eq_some_of_exists ⟨definition, hdefinition, beq_iff_eq.mpr rfl⟩⟩

/-- A declaration has its block at a place of a module: sorting puts it there, and there the module
has its name and its texts. -/
structure Emitted (declarations : List Declaration) (m : Module) (i place : Nat) : Prop where
  ordered : (Declaration.order declarations)[place]? = some i
  block : ∃ declaration b, declarations[i]? = some declaration ∧ m.blocks[place]? = some b ∧
    Renders declaration b ∧ m.names[place]? = some declaration.name

private theorem emitted_of_order {declarations : List Declaration} {m : Module} {i place : Nat}
    (hblocks : List.Forall₂ Renders (Declaration.sort declarations) m.blocks)
    (h : (Declaration.order declarations)[place]? = some i) : Emitted declarations m i place := by
  have hlt := Declaration.lt_length_of_mem_order (List.mem_of_getElem? h)
  have hsorted : (Declaration.sort declarations)[place]? = some declarations[i] := by
    rw [Declaration.getElem?_sort, h, Option.bind_some, List.getElem?_eq_getElem hlt]
  obtain ⟨hplace, hdeclaration⟩ := List.getElem?_eq_some_iff.mp hsorted
  obtain ⟨hlength, hrenders⟩ := List.forall₂_iff_get.mp hblocks
  have hblock : place < m.blocks.length := hlength ▸ hplace
  have hboth := hrenders place hplace hblock
  rw [List.get_eq_getElem, List.get_eq_getElem, hdeclaration] at hboth
  have hget := List.getElem?_eq_getElem hblock
  refine ⟨h, declarations[i], m.blocks[place], List.getElem?_eq_getElem hlt, hget, hboth, ?_⟩
  rw [names, List.getElem?_map, hget]
  exact congrArg some hboth.name

private theorem exists_emitted {declarations : List Declaration} {m : Module} {i : Nat}
    (hblocks : List.Forall₂ Renders (Declaration.sort declarations) m.blocks)
    (h : i < declarations.length) : ∃ place, Emitted declarations m i place := by
  have hmem := (Declaration.order_perm declarations).mem_iff.mpr (List.mem_range.mpr h)
  obtain ⟨place, hplace⟩ := List.mem_iff_getElem?.mp hmem
  exact ⟨place, emitted_of_order hblocks hplace⟩

/-- The blocks of a module are those of the collected declarations in their sorted order, each of
them once. The first declaration of a name to which another declaration refers, at any depth of its
schema, has its block before that of the other, unless it leads back to it. -/
theorem referenced_declared_before {options : Options} {schema : Document} {m : Module}
    (h : (generate options schema).result = .ok m) :
    ∃ mappings definitions,
      ImportMapping.parseAll options.imports = .ok mappings ∧
      (collect (options.scope mappings) (Name.ofFilePath options.inputFile) schema).result =
        .ok definitions ∧
      let declarations := definitions.map Definition.declaration
      (Declaration.order declarations).Perm (List.range declarations.length) ∧
      m.blocks.length = declarations.length ∧
      (∀ i, i < declarations.length → ∃ place, Emitted declarations m i place) ∧
      ∀ i name part, (sources schema (Name.ofFilePath options.inputFile))[i]? = some (name, part) →
        definitions[i]?.map Definition.name = some name ∧
        ∀ position key, part.Reaches position →
          position.get? "$ref" = some (.string ("#/definitions/" ++ key)) →
          '/' ∉ key.toList → '#' ∉ key.toList →
          Name.ofKebab key ∈ m.names → Name.ofKebab key ≠ name →
          ∃ j, definitions.findIdx? (fun definition => definition.name == Name.ofKebab key) =
              some j ∧
            (TransGen (Declaration.DependsOn declarations) j i ∨
              ∃ before after, before < after ∧ Emitted declarations m j before ∧
                Emitted declarations m i after) := by
  obtain ⟨mappings, definitions, hmappings, hcollect, hgives⟩ := exists_blocksOf_of_generate h
  have hblocks := renders_of_blocksOf hgives
  have hnames := names_of_renders hblocks
  have hperm := Declaration.order_perm (definitions.map Definition.declaration)
  refine ⟨mappings, definitions, hmappings, hcollect.result, hperm, ?_,
    fun i hi => exists_emitted hblocks hi, ?_⟩
  · have hsorted := congrArg List.length (Declaration.map_some_sort
      (definitions.map Definition.declaration))
    rw [List.length_map, List.length_map, hperm.length_eq, List.length_range] at hsorted
    rw [← hblocks.length_eq, hsorted]
  · intro i name part hsource
    obtain ⟨definition, hget, hrepresents⟩ := exists_of_sources hcollect hsource
    refine ⟨by rw [hget]; exact congrArg some hrepresents.name, ?_⟩
    intro position key hposition href hslash hhash hemitted hother
    -- However deep the reference stands, conversion keeps it among those of the codec.
    have hmentioned := hrepresents.references position _ _ hposition href
      (Reference.parse_definition hslash hhash)
    obtain ⟨j, hj⟩ := exists_index_of_mem_names hnames hemitted
    have hdepends : Declaration.DependsOn (definitions.map Definition.declaration) i j := by
      refine ⟨definition.declaration, Name.ofKebab key, ?_, Codec.mem_dependencies.mpr hmentioned,
        ?_⟩
      · rw [List.getElem?_map, hget]
        rfl
      · rw [List.findIdx?_map]
        exact hj
    have hne : j ≠ i := by
      intro heq
      subst j
      obtain ⟨hi, hname, -⟩ := List.findIdx?_eq_some_iff_getElem.mp hj
      obtain ⟨_, hfound⟩ := List.getElem?_eq_some_iff.mp hget
      rw [hfound, hrepresents.name] at hname
      exact hother (beq_iff_eq.mp hname).symm
    refine ⟨j, hj, (Declaration.order_before hdepends hne).imp id ?_⟩
    rintro ⟨before, after, hlt, hbefore, hafter⟩
    exact ⟨before, after, hlt, emitted_of_order hblocks hbefore, emitted_of_order hblocks hafter⟩

def shopOptions : Options :=
  ⟨[], "", "shop.json", "", 0, "", false, false⟩

def priceChoice : Document :=
  .object [("anyOf", .array [.object [("type", .string "null")],
    .object [("$ref", .string "#/definitions/price")]])]

def lineItem : Document :=
  .object [("type", .string "object"), ("properties", .object [("price", priceChoice)])]

/-- A list of items whose price is defined behind them, and once more under a key that leads to the
same name. -/
def shopSchema : Document :=
  .object [("$schema", .string "draft-07"),
    ("definitions", .object [("line-item", lineItem),
      ("price", .object [("type", .string "number")]),
      ("Price", .object [("type", .string "string")])]),
    ("type", .string "array"), ("items", .object [("$ref", .string "#/definitions/line-item")])]

theorem referenced_declared_before_shop :
    ∃ m, (generate shopOptions shopSchema).result = .ok m ∧
      m.names = ["Price", "LineItem", "Price", "Shop"] ∧
      ∃ definitions : List Definition,
        let declarations := definitions.map Definition.declaration
        ∃ j, definitions.findIdx? (fun definition => definition.name == Name.ofKebab "price") =
            some j ∧
          (TransGen (Declaration.DependsOn declarations) j 0 ∨
            ∃ before after, before < after ∧ Emitted declarations m j before ∧
              Emitted declarations m 0 after) := by
  have hgenerate : ∃ m, (generate shopOptions shopSchema).result = .ok m ∧
      m.names = ["Price", "LineItem", "Price", "Shop"] := ⟨_, rfl, by decide⟩
  obtain ⟨m, hm, hnames⟩ := hgenerate
  obtain ⟨mappings, definitions, -, -, -, -, -, hbefore⟩ := referenced_declared_before hm
  obtain ⟨-, hbefore⟩ := hbefore 0 "LineItem" lineItem rfl
  have hreaches : lineItem.Reaches (.object [("$ref", .string "#/definitions/price")]) :=
    .head (Document.mem_subschemas_of_map rfl (.inl rfl) rfl (List.mem_cons_self ..))
      (.head (Document.mem_subschemas_of_list rfl (.inr (.inl rfl)) rfl
        (List.mem_cons_of_mem _ (List.mem_cons_self ..))) (.refl _))
  refine ⟨m, hm, hnames, definitions, ?_⟩
  refine hbefore _ "price" hreaches rfl (by decide) (by decide) ?_ (by decide)
  rw [hnames]
  decide

end Module

end SchemaCodec
