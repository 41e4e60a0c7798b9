import SchemaCodec.Conversion.Context
import SchemaCodec.Proofs.Conversion.Faults
import SchemaCodec.Proofs.Diagnostics.Tracking

namespace SchemaCodec

/-! Where a schema is found shows only in the places of its faults, and what was converted before
does not show at all. -/

def Location.below (base : String) (location : Location) : Location :=
  ⟨base ++ location.base, location.steps⟩

private theorem Location.path_below (base : String) (location : Location) :
    (location.below base).path = base ++ location.path :=
  String.append_assoc

private theorem Location.root_below (base : String) : Location.root.below base = .ofPath base := by
  rw [Location.below, Location.root, Location.ofPath, String.append_empty]

def Fault.below (base : String) : Fault → Fault
  | .located fault => .located ⟨fault.location.below base, fault.problem⟩
  | fault => fault

namespace Conversion

/-- The conversion, in a document that is itself found at a path. -/
def below (base : String) (conversion : Conversion α) : Conversion α :=
  ⟨conversion.events, conversion.result.mapError (Fault.below base)⟩

section

variable {base : String}

private theorem bind_below {first other : Conversion α} {next further : α → Conversion β}
    (hfirst : other = first.below base)
    (hnext : ∀ value, further value = (next value).below base) :
    other >>= further = (first >>= next).below base := by
  subst hfirst
  obtain rfl : further = fun value => (next value).below base := funext hnext
  obtain ⟨events, result⟩ := first
  cases result with
  | ok value => rfl
  | error fault => rfl

private theorem each_below {convert other : α → Conversion β}
    (h : ∀ item, other item = (convert item).below base) (items : List α) :
    each other items = (each convert items).below base := by
  induction items with
  | nil => rfl
  | cons item rest ih =>
      apply bind_below (h item)
      intro first
      exact bind_below ih fun others => rfl

/-- A conversion that does not fail has no place to tell. -/
theorem eq_below {conversion : Conversion α} (h : conversion.FailsOnly fun _ => False) :
    conversion = conversion.below base := by
  obtain ⟨events, result⟩ := conversion
  cases result with
  | ok value => rfl
  | error fault => exact (h fault rfl).elim

private theorem reportIf_below {condition : Prop} [Decidable condition] {note : Report}
    {next further : Unit → Conversion β} (h : further () = (next ()).below base) :
    (if condition then report note >>= further else further ()) =
      (if condition then report note >>= next else next ()).below base := by
  split
  · exact bind_below rfl fun _ => h
  · exact h

end

/-- Schemas are converted in the same way wherever they are found. -/
def Equivariant (base : String) (convert : Converter) : Prop :=
  ∀ place part, convert (place.below base) part = (convert place part).below base

section

variable (base : String) (scope : Scope) (location : Location) (schema : Document)

/-! Keywords that stand for themselves -/

private theorem referenceAt_below :
    referenceAt (location.below base) schema = (referenceAt location schema).below base := by
  unfold referenceAt
  split <;> rfl

private theorem fromReference_below (text : String) :
    fromReference scope (location.below base) schema text =
      (fromReference scope location schema text).below base := by
  unfold fromReference
  apply reportIf_below
  split
  · rfl
  · split
    · rfl
    · split <;> rfl

private theorem valueUnder_below (type keyword : String) (problem : Fault.Problem) :
    valueUnder type keyword problem (location.below base) schema =
      (valueUnder type keyword problem location schema).below base := by
  unfold valueUnder
  split
  · rfl
  · split <;> rfl

private theorem schemaMap_below (keyword : String) :
    schemaMap keyword (location.below base) schema =
      (schemaMap keyword location schema).below base := by
  apply bind_below (valueUnder_below ..)
  intro value
  split <;> rfl

private theorem fromRequired_below :
    fromRequired (location.below base) schema = (fromRequired location schema).below base := by
  have hproperty : ∀ item, requiredProperty (location.below base) item =
      (requiredProperty location item).below base := by
    intro item
    unfold requiredProperty
    split <;> rfl
  unfold fromRequired
  split
  · rfl
  · exact bind_below (each_below hproperty _) fun properties => rfl
  · rfl

private theorem fromEnum_below :
    fromEnum scope (location.below base) schema =
      (fromEnum scope location schema).below base := by
  have hmember : ∀ item, enumMember scope (location.below base) item =
      (enumMember scope location item).below base := by
    intro item
    unfold enumMember
    split
    · exact eq_below failsOnly_nullCodec
    · split <;> rfl
  unfold fromEnum
  split
  · rfl
  · exact bind_below (each_below hmember _) fun codecs => rfl
  · rfl

private theorem fromConst_below :
    fromConst (location.below base) schema = (fromConst location schema).below base := by
  unfold fromConst
  split
  · rfl
  · split <;> rfl

private theorem compose_below (codecs : List Codec) :
    compose (location.below base) schema codecs =
      (compose location schema codecs).below base := by
  unfold compose
  split
  · split <;> rfl
  · rfl
  · rfl

end

/-! Keywords with schemas inside -/

section

variable {base : String} {convert : Converter}

private theorem convertMap_below (hconvert : Equivariant base convert) (keyword : String)
    (location : Location) (members : List (String × Document)) :
    convertMap convert keyword (location.below base) members =
      (convertMap convert keyword location members).below base := by
  apply each_below
  intro member
  exact bind_below (hconvert (location.down [keyword, member.1]) member.2) fun codec => rfl

private theorem convertList_below (hconvert : Equivariant base convert) (keyword : String)
    (location : Location) (schemas : List Document) :
    convertList convert keyword (location.below base) schemas =
      (convertList convert keyword location schemas).below base := by
  apply each_below
  intro item
  exact hconvert (location.down [keyword, toString item.2]) item.1

variable (scope : Scope) (location : Location) (schema : Document)

private theorem fromProperties_below (hconvert : Equivariant base convert) :
    fromProperties convert (location.below base) schema =
      (fromProperties convert location schema).below base := by
  apply bind_below (schemaMap_below ..)
  intro value
  cases value with
  | none => rfl
  | some members => exact bind_below (convertMap_below hconvert ..) fun codecs => rfl

private theorem fromPropertyNames_below (hconvert : Equivariant base convert) :
    fromPropertyNames convert (location.below base) schema =
      (fromPropertyNames convert location schema).below base := by
  apply bind_below (valueUnder_below ..)
  intro value
  cases value with
  | none => rfl
  | some names =>
      exact bind_below (hconvert (location.down ["propertyNames"]) names) fun domain => rfl

private theorem fromPatternProperties_below (hconvert : Equivariant base convert) :
    fromPatternProperties convert (location.below base) schema =
      (fromPatternProperties convert location schema).below base := by
  apply bind_below (schemaMap_below ..)
  intro value
  cases value with
  | none => rfl
  | some patterns =>
      refine bind_below rfl fun _ => ?_
      apply bind_below (convertMap_below hconvert ..)
      intro named
      exact bind_below (convertMap_below hconvert ..) fun matched => rfl

private theorem fromAdditionalProperties_below (hconvert : Equivariant base convert) :
    fromAdditionalProperties convert (location.below base) schema =
      (fromAdditionalProperties convert location schema).below base := by
  apply bind_below (valueUnder_below ..)
  intro found
  split
  · rfl
  · rfl
  · next value _ =>
      exact bind_below (hconvert (location.down ["additionalProperties"]) value) fun codec => rfl

private theorem fromObject_below (hconvert : Equivariant base convert) :
    fromObject convert (location.below base) schema =
      (fromObject convert location schema).below base := by
  apply bind_below (fromProperties_below location schema hconvert)
  intro properties
  apply bind_below (fromPropertyNames_below location schema hconvert)
  intro names
  apply bind_below (fromPatternProperties_below location schema hconvert)
  intro patterns
  apply bind_below (fromAdditionalProperties_below location schema hconvert)
  intro others
  exact bind_below (fromRequired_below ..) fun required => rfl

private theorem fromArray_below (hconvert : Equivariant base convert) :
    fromArray convert (location.below base) schema =
      (fromArray convert location schema).below base := by
  have hitems : fromItems convert (location.below base) schema =
      (fromItems convert location schema).below base := by
    apply bind_below (valueUnder_below ..)
    intro value
    split
    · rfl
    · rfl
    · rfl
    · split
      · exact bind_below (convertList_below hconvert ..) fun codecs => rfl
      · rfl
    · next item _ _ _ =>
        exact bind_below (hconvert (location.down ["items"]) item) fun codec => rfl
  apply bind_below hitems
  intro codecs
  exact reportIf_below rfl

private theorem fromAll_below (hconvert : Equivariant base convert) (keyword : String) :
    fromAll convert keyword (location.below base) schema =
      (fromAll convert keyword location schema).below base := by
  unfold fromAll
  split
  · rfl
  · exact convertList_below hconvert ..
  · rfl

private theorem contributions_below (hconvert : Equivariant base convert) :
    contributions scope convert (location.below base) schema =
      (contributions scope convert location schema).below base := by
  apply bind_below (eq_below failsOnly_fromType)
  intro types
  apply bind_below (fromObject_below location schema hconvert)
  intro object
  apply bind_below (fromArray_below location schema hconvert)
  intro array
  apply bind_below (fromEnum_below ..)
  intro enum
  apply bind_below (fromConst_below ..)
  intro const
  apply bind_below (fromAll_below location schema hconvert "allOf")
  intro allOf
  apply bind_below (fromAll_below location schema hconvert "anyOf")
  intro anyOf
  exact bind_below (fromAll_below location schema hconvert "oneOf") fun oneOf => rfl

private theorem compileBy_below (hconvert : Equivariant base convert) (isTop : Bool) :
    compileBy convert scope isTop (location.below base) schema =
      (compileBy convert scope isTop location schema).below base := by
  unfold compileBy
  split
  · rfl
  · apply bind_below (eq_below (failsOnly_reportKeywords isTop))
    intro _
    apply bind_below (referenceAt_below ..)
    intro reference
    cases reference with
    | some text => exact fromReference_below ..
    | none =>
        refine bind_below rfl fun _ => ?_
        exact bind_below (contributions_below scope location _ hconvert) fun codecs =>
          compose_below ..
  · rfl

end

private theorem equivariant_compileWithin (base : String) (scope : Scope) (depth : Nat)
    (isTop : Bool) :
    Equivariant base (compileWithin scope depth isTop) := by
  induction depth generalizing isTop with
  | zero => exact fun place part => rfl
  | succ depth ih => exact fun place part => compileBy_below scope place part (ih false) isTop

private theorem equivariant_compile (base : String) (scope : Scope) (isTop : Bool) :
    Equivariant base (compile scope isTop) := by
  intro place part
  exact equivariant_compileWithin base scope _ isTop place part

private theorem compile_ofPath (base : String) (scope : Scope) (isTop : Bool) (schema : Document) :
    compile scope isTop (.ofPath base) schema =
      (compile scope isTop .root schema).below base := by
  rw [← Location.root_below]
  exact equivariant_compile base scope isTop .root schema

end Conversion

/-! What is left behind in a context -/

def OrderedSet.missing (set : OrderedSet) (values : List String) : List String :=
  (values.filter fun value => !set.has value).eraseDups

private theorem OrderedSet.values_addAll (set : OrderedSet) (values : List String) :
    (set.addAll values).values = set.values ++ set.missing values := by
  induction values generalizing set with
  | nil => exact (List.append_nil _).symm
  | cons value rest ih =>
      have hstep : set.addAll (value :: rest) = (set.add value).addAll rest := rfl
      rw [hstep, ih]
      by_cases hmem : value ∈ set.values
      · have hadd : set.add value = set := by
          rw [add, dif_pos hmem]
        have hhas : set.has value = true := List.contains_iff_mem.mpr hmem
        rw [hadd, missing, missing, List.filter_cons_of_neg (by simp [hhas])]
      · have hadd : (set.add value).values = set.values ++ [value] := by
          rw [add, dif_neg hmem]
        have hhas : set.has value = false := by
          simpa [has] using hmem
        have hrest : (rest.filter fun other => !(set.add value).has other) =
            (rest.filter fun other => !set.has other).filter fun other => !other == value := by
          rw [List.filter_filter]
          apply List.filter_congr
          intro other _
          by_cases hsame : other = value
          · simp [has, hadd, hsame]
          · simp [has, hadd, hsame]
        rw [hadd, missing, missing, List.filter_cons_of_pos (by simp [hhas]), hrest,
          List.eraseDups_cons, List.append_assoc]
        rfl

/-- The context has got further reports, and what was required of it as far as it was missing. -/
structure Context.Extends (before after : Context) (reports : List Report)
    (imports helpers : List String) : Prop where
  reports : after.tracker.entries = before.tracker.entries ++ reports
  imports : after.imports.values = before.imports.values ++ before.imports.missing imports
  helpers : after.helpers.values = before.helpers.values ++ before.helpers.missing helpers

private theorem Context.extends_absorb (context : Context) (events : List Event) :
    context.Extends (context.absorb events) (events.filterMap Event.report?)
      ((events.filterMap Event.requirement?).filterMap Requirement.importText?)
      ((events.filterMap Event.requirement?).filterMap Requirement.helperText?) where
  reports := Tracker.entries_reportAll ..
  imports := OrderedSet.values_addAll ..
  helpers := OrderedSet.values_addAll ..

namespace Conversion

/-- Wherever a schema is found and whatever has been converted before, it has the same codec or the
same fault, with its place told from there, and adds the same to the context. -/
theorem compile_equivariant (scope : Scope) (isTop : Bool) (base : String) (schema : Document)
    (here there : Context) :
    let moved := compile scope isTop (.ofPath base) schema
    let plain := compile scope isTop .root schema
    moved.result = plain.result.mapError (Fault.below base) ∧
    (∀ fault, plain.result = .error fault → ∃ origin found : Fault.Located,
      fault = .located origin ∧ moved.result = .error (.located found) ∧
      found.location.path = base ++ origin.location.path ∧
      found.problem.detail = origin.problem.detail ∧
      found.problem.rule = origin.problem.rule) ∧
    ∃ reports imports helpers,
      here.Extends (here.absorb moved.events) reports imports helpers ∧
      there.Extends (there.absorb plain.events) reports imports helpers := by
  intro moved plain
  have hmoved : moved = plain.below base := compile_ofPath base scope isTop schema
  have hevents : moved.events = plain.events := by
    rw [hmoved]
    rfl
  have hresult : moved.result = plain.result.mapError (Fault.below base) := by
    rw [hmoved]
    rfl
  refine ⟨hresult, ?_, ?_⟩
  · intro fault hfault
    obtain ⟨steps, problem, rfl, -⟩ := failsOnly_compile scope isTop .root schema fault hfault
    rw [hfault] at hresult
    exact ⟨_, ⟨(Location.root.down steps).below base, problem⟩, rfl, hresult,
      Location.path_below .., rfl, rfl⟩
  · rw [hevents]
    exact ⟨_, _, _, here.extends_absorb _, there.extends_absorb _⟩

def tagScope : Scope :=
  ⟨true, ⟨"", "", [], 0, ""⟩⟩

def tagSchema : Document :=
  .object [("type", .string "object"), ("colour", .null),
    ("properties", .object [("a/b", .object [("enum", .array [.null, .array []])])])]

/-- One of the contexts has the import of the codecs already. -/
theorem compile_equivariant_tagSchema :
    let moved := compile tagScope true (.ofPath "/definitions/tag") tagSchema
    let plain := compile tagScope true .root tagSchema
    let late := (Context.fresh "late.json").absorb [.required .codecs]
    (∃ origin found : Fault.Located, plain.result = .error (.located origin) ∧
      moved.result = .error (.located found) ∧
      origin.location.path = "/properties/a~1b/enum/1" ∧
      found.location.path = "/definitions/tag" ++ origin.location.path) ∧
    ∃ reports imports helpers,
      late.Extends (late.absorb moved.events) reports imports helpers ∧
      (Context.fresh "tag.json").Extends ((Context.fresh "tag.json").absorb plain.events) reports
        imports helpers := by
  intro moved plain late
  obtain ⟨-, hfault, hextends⟩ :=
    compile_equivariant tagScope true "/definitions/tag" tagSchema late (.fresh "tag.json")
  have hplain : plain.result = .error (.located ⟨⟨"", ["properties", "a/b", "enum", "1"]⟩,
      .notLiteral "ENUM" "object"⟩) := by
    rfl
  obtain ⟨origin, found, horigin, hfound, hpath, -, -⟩ := hfault _ hplain
  cases horigin
  exact ⟨⟨_, found, hplain, hfound, by decide, hpath⟩, hextends⟩

end Conversion

end SchemaCodec
