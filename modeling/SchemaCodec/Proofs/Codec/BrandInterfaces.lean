import Mathlib.Data.List.Nodup
import SchemaCodec.Codec.Declaration
import SchemaCodec.Proofs.Codec.Distinct
import SchemaCodec.Proofs.Codec.Nodes
import SchemaCodec.Proofs.Codec.ReadingBack

/-! The interfaces in front of a declaration are those of the brands that its codec is written
with. -/

namespace SchemaCodec.Codec

def brand? : Codec → Option String
  | .brand _ _ name => some name
  | _ => none

private theorem propertyBrandNames_eq (properties : List (Property Codec)) :
    propertyBrandNames properties = (properties.map Property.type).flatMap brandNames := by
  induction properties with
  | nil => rfl
  | cons property rest ih =>
      rw [List.map_cons, List.flatMap_cons, ← ih]
      rfl

private theorem memberBrandNames_eq (members : List Codec) :
    memberBrandNames members = members.flatMap brandNames := by
  induction members with
  | nil => rfl
  | cons member rest ih =>
      rw [List.flatMap_cons, ← ih]
      rfl

private theorem brandNames_eq (codec : Codec) :
    codec.brandNames = codec.brand?.toList ++ codec.children.flatMap brandNames := by
  cases codec with
  | object shape properties => exact propertyBrandNames_eq properties
  | group g members => exact memberBrandNames_eq members
  | wrapper w inner => exact (List.flatMap_singleton ..).symm
  | record domain codomain =>
      change domain.brandNames ++ codomain.brandNames =
        domain.brandNames ++ (codomain.brandNames ++ [])
      rw [List.append_nil]
  | brand inner condition name =>
      change name :: inner.brandNames = name :: (inner.brandNames ++ [])
      rw [List.append_nil]
  | _ => rfl

/-- The brands are met in the order of the nodes. -/
theorem brandNames_eq_filterMap (codec : Codec) :
    codec.brandNames = codec.nodes.filterMap brand? := by
  induction codec using children_induction with
  | step codec ih =>
      rw [brandNames_eq, nodes_eq, ← List.singleton_append, List.filterMap_append,
        List.filterMap_flatMap, List.flatMap_congr ih]
      cases h : codec.brand? <;> simp [h]

private theorem mem_brandNames {codec : Codec} {name : String} :
    name ∈ codec.brandNames ↔
      codec.brand? = some name ∨ ∃ part ∈ codec.children, name ∈ part.brandNames := by
  rw [brandNames_eq, List.mem_append, Option.mem_toList, List.mem_flatMap]

/-! Brands in source text -/

private theorem brandName_injective : Function.Injective brandName := by
  intro first second h
  simpa [brandName] using h

namespace Layout

/-- The layouts that a layout is put together from. -/
def parts : Layout → List Layout
  | .leaf _ => []
  | .wrap _ inner _ => [inner]
  | .pair _ first _ second _ => [first, second]
  | .block _ elements _ _ => elements.map Element.body

def opening : Layout → String
  | .leaf _ => ""
  | .wrap opening _ _ => opening
  | .pair opening _ _ _ _ => opening
  | .block opening _ _ _ => opening

def guard (name : String) (inner : Layout) (test : String) : Layout :=
  .wrap "(x): x is t.Branded<" inner (", " ++ brandName name ++ "> => " ++ test)

/-- A brand as it is written in a static type, in the type of a codec, or in a codec. -/
inductive IsBrand (name : String) : Layout → Prop
  | static (inner : Layout) :
      IsBrand name (.wrap "t.Branded<" inner (", " ++ brandName name ++ ">"))
  | decoder (inner : Layout) :
      IsBrand name (.wrap "t.BrandC<" inner (", " ++ brandName name ++ ">"))
  | runtime (inner guarded : Layout) (test : String) :
      IsBrand name (.block "t.brand("
        [⟨"", "", inner⟩, ⟨"", "", guard name guarded test⟩, ⟨"", "", .leaf (stringText name)⟩]
        "," ")")

/-- A brand of the name is written in the layout or in a part of it. -/
inductive Shows (name : String) : Layout → Prop
  | here {layout : Layout} (brand : layout.IsBrand name) : Shows name layout
  | inside {layout part : Layout} (mem : part ∈ layout.parts) (part : Shows name part) :
      Shows name layout

private theorem shows_iff {name : String} {layout : Layout} :
    layout.Shows name ↔ layout.IsBrand name ∨ ∃ part ∈ layout.parts, part.Shows name := by
  constructor
  · intro h
    cases h with
    | here hbrand => exact .inl hbrand
    | inside hmem hpart => exact .inr ⟨_, hmem, hpart⟩
  · rintro (hbrand | ⟨part, hmem, hpart⟩)
    · exact .here hbrand
    · exact .inside hmem hpart

def brandOpenings : List String :=
  ["t.Branded<", "t.BrandC<", "t.brand("]

private theorem IsBrand.opening_mem {name : String} {layout : Layout} (h : layout.IsBrand name) :
    layout.opening ∈ brandOpenings := by
  cases h with
  | static | decoder | runtime => simp [opening, brandOpenings]

private theorem eq_of_interface_eq {first second : String}
    (h : ", " ++ brandName first ++ ">" = ", " ++ brandName second ++ ">") : first = second :=
  brandName_injective (by simpa using h)

/-- The name of a brand can be told from the way it is written. -/
theorem IsBrand.unique {first second : String} {layout : Layout} (hfirst : layout.IsBrand first)
    (hsecond : layout.IsBrand second) : first = second := by
  generalize hsame : layout = other at hsecond
  cases hfirst with
  | static =>
      cases hsecond with
      | static => exact eq_of_interface_eq (wrap.inj hsame).2.2
      | decoder => exact absurd (wrap.inj hsame).1 (by decide)
      | runtime => cases hsame
  | decoder =>
      cases hsecond with
      | static => exact absurd (wrap.inj hsame).1 (by decide)
      | decoder => exact eq_of_interface_eq (wrap.inj hsame).2.2
      | runtime => cases hsame
  | runtime =>
      cases hsecond with
      | static | decoder => cases hsame
      | runtime =>
          have hnames := congrArg List.getLast? (block.inj hsame).2.1
          exact stringText_injective (leaf.inj (Element.mk.inj (Option.some.inj hnames)).2.2)

private theorem not_shows_leaf {name text : String} : ¬ (leaf text).Shows name := by
  rw [shows_iff]
  rintro (hbrand | ⟨part, hpart, -⟩)
  · exact absurd hbrand.opening_mem (by simp [opening, brandOpenings])
  · cases hpart

private theorem shows_guard {name other test : String} {inner : Layout} :
    (guard other inner test).Shows name ↔ inner.Shows name := by
  have hguard : ¬ (guard other inner test).IsBrand name := fun h =>
    absurd h.opening_mem (by simp [guard, opening, brandOpenings])
  have hparts : (guard other inner test).parts = [inner] := rfl
  rw [shows_iff, or_iff_right hguard, hparts]
  simp

end Layout

open Layout (brandOpenings)

private theorem opening_group_notMem (dialect : Dialect) (g : Group) :
    (dialect.group g).opening ∉ brandOpenings := by
  have hunion : (dialect.group .union).opening ∉ brandOpenings := by cases dialect <;> decide
  cases g with
  | tuple => cases dialect <;> decide
  | union => exact hunion
  | taggedUnion tag => cases dialect <;> exact hunion
  | intersection => cases dialect <;> decide

/-- Only brands are written like brands. -/
theorem opening_layout_notMem {codec : Codec} (h : codec.brand? = none) (dialect : Dialect) :
    (codec.layout dialect).opening ∉ brandOpenings := by
  have hleaf : "" ∉ brandOpenings := by decide
  cases codec with
  | object shape properties =>
      change (dialect.object shape).1 ∉ brandOpenings
      cases dialect <;> cases shape <;> decide
  | wrapper w inner =>
      change (dialect.wrapper w).1 ∉ brandOpenings
      cases dialect <;> cases w <;> decide
  | group g members => exact opening_group_notMem dialect g
  | record domain codomain =>
      change dialect.record.1 ∉ brandOpenings
      cases dialect <;> decide
  | keyof keys =>
      change dialect.keyof.opening ∉ brandOpenings
      cases dialect <;> decide
  | brand inner condition name => cases h
  | _ => exact hleaf

private theorem isBrand_layout (dialect : Dialect) (inner : Codec) (condition : Condition)
    (name : String) : ((brand inner condition name).layout dialect).IsBrand name := by
  cases dialect with
  | static => exact .static _
  | decoder => exact .decoder _
  | runtime => exact .runtime _ _ _

private theorem isBrand_layout_iff {codec : Codec} {dialect : Dialect} {name : String} :
    (codec.layout dialect).IsBrand name ↔ codec.brand? = some name := by
  cases h : codec.brand? with
  | none =>
      refine ⟨fun hbrand => ?_, nofun⟩
      exact absurd hbrand.opening_mem (opening_layout_notMem h dialect)
  | some found =>
      cases codec with
      | brand inner condition name =>
          cases h
          have hbrand := isBrand_layout dialect inner condition found
          constructor
          · intro hname
            rw [hbrand.unique hname]
          · rintro ⟨⟩
            exact hbrand
      | _ => cases h

private theorem bodies_propertyElements (dialect : Dialect) (shape : Shape)
    (properties : List (Property Codec)) :
    (propertyElements dialect shape properties).map Element.body =
      (properties.map Property.type).map (layout dialect) := by
  induction properties with
  | nil => rfl
  | cons property rest ih =>
      rw [List.map_cons, List.map_cons, ← ih]
      rfl

private theorem bodies_memberElements (dialect : Dialect) (lead : String) (members : List Codec) :
    (memberElements dialect lead members).map Element.body = members.map (layout dialect) := by
  induction members with
  | nil => rfl
  | cons member rest ih =>
      rw [List.map_cons, ← ih]
      rfl

/-- All dialects write exactly the brands of a codec. -/
theorem shows_layout_iff (codec : Codec) (dialect : Dialect) (name : String) :
    (codec.layout dialect).Shows name ↔ name ∈ codec.brandNames := by
  induction codec using children_induction generalizing dialect with
  | step codec ih =>
      rw [Layout.shows_iff, isBrand_layout_iff, mem_brandNames]
      refine or_congr_right ?_
      have hparts : (codec.layout dialect).parts = codec.children.map (layout dialect) →
          ((∃ part ∈ (codec.layout dialect).parts, part.Shows name) ↔
            ∃ part ∈ codec.children, name ∈ part.brandNames) := by
        intro heq
        rw [heq]
        simp only [List.mem_map, exists_exists_and_eq_and]
        exact exists_congr fun part => and_congr_right fun hpart => ih part hpart dialect
      cases codec with
      | object shape properties => exact hparts (bodies_propertyElements dialect shape properties)
      | group g members => exact hparts (bodies_memberElements dialect _ members)
      | keyof keys =>
          refine ⟨?_, nofun⟩
          rintro ⟨part, hpart, hshows⟩
          obtain ⟨element, helement, rfl⟩ := List.mem_map.mp hpart
          obtain ⟨key, -, rfl⟩ := List.mem_map.mp helement
          exact absurd hshows Layout.not_shows_leaf
      | brand inner condition other =>
          cases dialect with
          | static | decoder => exact hparts rfl
          | runtime =>
              -- The guard holds the static type of what is branded.
              have hinner := ih inner (List.mem_singleton_self inner)
              change (∃ part ∈ [layout .runtime inner, Layout.guard other (layout .static inner) _,
                .leaf (stringText other)], part.Shows name) ↔ _
              simp only [List.exists_mem_cons_iff, Layout.shows_guard, hinner,
                Layout.not_shows_leaf, children, List.not_mem_nil, false_and, exists_false,
                or_false, or_self]
      | _ => exact hparts rfl

/-! Interfaces in source text -/

namespace Layout

private theorem bodyChars_within (element : Element Layout) (level : Nat) :
    element.body.chars level <:+: elementChars element level := by
  obtain ⟨description, lead, body⟩ := element
  exact (List.suffix_append ..).isInfix

private theorem elementChars_within {elements : List (Element Layout)} {element : Element Layout}
    (h : element ∈ elements) (separator : String) (level : Nat) :
    elementChars element level <:+: elementsChars elements separator level := by
  induction elements with
  | nil => cases h
  | cons first rest ih =>
      cases rest with
      | nil =>
          rw [List.mem_singleton.mp h]
          exact List.infix_refl _
      | cons next others =>
          rw [elementsChars, List.append_assoc]
          rcases List.mem_cons.mp h with rfl | hrest
          · exact (List.prefix_append ..).isInfix
          · refine (ih hrest).trans (List.IsSuffix.isInfix ?_)
            exact ((List.suffix_cons ..).trans (List.suffix_append ..)).trans
              (List.suffix_append ..)

/-- The text of a part, moved in as it may be, stands in the text of the whole. -/
theorem exists_part_within {layout part : Layout} (h : part ∈ layout.parts) (level : Nat) :
    ∃ depth, part.chars depth <:+: layout.chars level := by
  cases layout with
  | leaf text => cases h
  | wrap opening inner closing =>
      rw [List.mem_singleton.mp h]
      exact ⟨level, List.infix_append ..⟩
  | pair opening first between second closing =>
      refine ⟨level, ?_⟩
      rw [chars]
      simp only [parts, List.mem_cons, List.not_mem_nil, or_false] at h
      rcases h with rfl | rfl
      · rw [List.append_assoc, List.append_assoc]
        exact List.infix_append ..
      · exact List.infix_append ..
  | block opening elements separator closing =>
      obtain ⟨element, helement, rfl⟩ := List.mem_map.mp h
      refine ⟨level + 1, ?_⟩
      have hbody := (bodyChars_within element (level + 1)).trans
        (elementChars_within helement separator _)
      cases elements with
      | nil => cases helement
      | cons first rest =>
          rw [chars, List.append_assoc]
          refine (hbody.trans (List.suffix_cons '\n' _).isInfix).trans ?_
          exact List.infix_append ..

private theorem Shows.interface_within {name : String} {layout : Layout} (h : layout.Shows name) :
    ∀ level, (brandName name).toList <:+: layout.chars level := by
  have hmention : ∀ closing, (brandName name).toList <:+:
      (", " ++ brandName name ++ closing).toList := by
    intro closing
    rw [String.toList_append, String.toList_append]
    exact List.infix_append ..
  have hwrap : ∀ opening inner closing level, (brandName name).toList <:+:
      (wrap opening inner (", " ++ brandName name ++ closing)).chars level := by
    intro opening inner closing level
    exact (hmention closing).trans (List.suffix_append ..).isInfix
  induction h with
  | here hbrand =>
      intro level
      cases hbrand with
      | static inner => exact hwrap _ inner _ level
      | decoder inner => exact hwrap _ inner _ level
      | runtime inner guarded test =>
          have hguard : ∀ depth, (brandName name).toList <:+:
              (guard name guarded test).chars depth := by
            intro depth
            rw [guard, String.append_assoc]
            exact hwrap _ guarded _ depth
          refine Exists.elim (exists_part_within ?_ level) fun depth => (hguard depth).trans
          exact List.mem_cons_of_mem _ (List.mem_cons_self ..)
  | inside hmem _ ih =>
      intro level
      obtain ⟨depth, hpart⟩ := exists_part_within hmem level
      exact (ih depth).trans hpart

end Layout

end SchemaCodec.Codec

namespace SchemaCodec.Declaration

open Codec

end SchemaCodec.Declaration
