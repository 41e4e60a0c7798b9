import SchemaCodec.Conversion.Definition

namespace SchemaCodec.Conversion

/-! No schema asks for an export: only documents as a whole do. -/

def exports (conversion : Conversion α) : List String :=
  (conversion.events.filterMap Event.requirement?).filterMap Requirement.exportText?

theorem exports_bind {first : Conversion α} {next : α → Conversion β} {value : α}
    (h : first.result = .ok value) :
    (first >>= next).exports = first.exports ++ (next value).exports := by
  have hevents : (first >>= next).events = first.events ++ (next value).events := by
    change (Conversion.bind first next).events = _
    rw [Conversion.bind, h]
  rw [exports, hevents, List.filterMap_append, List.filterMap_append]
  rfl

def Exportless (conversion : Conversion α) : Prop :=
  conversion.exports = []

theorem exportless_bind {first : Conversion α} {next : α → Conversion β}
    (hfirst : first.Exportless) (hnext : ∀ value, (next value).Exportless) :
    (first >>= next).Exportless := by
  cases hresult : first.result with
  | ok value =>
      rw [Exportless, exports_bind hresult, hfirst, hnext value]
      rfl
  | error fault =>
      have hstop : (first >>= next).events = first.events := by
        change (Conversion.bind first next).events = _
        rw [Conversion.bind, hresult]
      rw [Exportless, exports, hstop]
      exact hfirst

theorem exportless_ofExcept (outcome : Except Fault α) : (ofExcept outcome).Exportless := by
  cases outcome with
  | ok value => rfl
  | error fault => rfl

theorem exportless_each {convert : α → Conversion β} (h : ∀ item, (convert item).Exportless)
    (items : List α) : (each convert items).Exportless := by
  induction items with
  | nil => rfl
  | cons item rest ih =>
      apply exportless_bind (h item)
      intro first
      exact exportless_bind ih fun others => rfl

theorem exports_reportIf {condition : Prop} [Decidable condition] {note : Report}
    {next : Unit → Conversion β} :
    (if condition then report note >>= next else next ()).exports = (next ()).exports := by
  split <;> rfl

theorem exportless_reportIf {condition : Prop} [Decidable condition] {note : Report}
    {next : Unit → Conversion β} (h : (next ()).Exportless) :
    (if condition then report note >>= next else next ()).Exportless :=
  exports_reportIf.trans h

private theorem exportless_warnAll (messages : List String) : (warnAll messages).Exportless := by
  induction messages with
  | nil => rfl
  | cons message rest ih => exact exportless_bind rfl fun _ => ih

/-! Keywords that stand for themselves. -/

private theorem exportless_reportKeywords (isTop : Bool) (schema : Document) :
    (reportKeywords isTop schema).Exportless := by
  unfold reportKeywords
  split
  · exact exportless_reportIf (exportless_warnAll _)
  · exact exportless_warnAll _

private theorem exportless_referenceAt (location : Location) (schema : Document) :
    (referenceAt location schema).Exportless := by
  unfold referenceAt
  split <;> rfl

private theorem exportless_fromReference (scope : Scope) (location : Location) (schema : Document)
    (text : String) : (fromReference scope location schema text).Exportless := by
  apply exportless_reportIf
  split
  · rfl
  · split
    · rfl
    · split <;> rfl

private theorem exportless_nullCodec (scope : Scope) : (nullCodec scope).Exportless := by
  unfold nullCodec
  split <;> rfl

private theorem exportless_fromType (scope : Scope) (schema : Document) :
    (fromType scope schema).Exportless := by
  have hname : ∀ type name, (fromTypeName scope schema type name).Exportless := by
    intro type name
    unfold fromTypeName
    split
    case h_5 => exact exportless_bind (exportless_nullCodec scope) fun codec => rfl
    all_goals rfl
  unfold fromType
  split
  · rfl
  · exact exportless_bind (exportless_each (fun name => hname _ _) _) fun codecs => rfl

private theorem exportless_fromRequired (location : Location) (schema : Document) :
    (fromRequired location schema).Exportless := by
  have hproperty : ∀ item, (requiredProperty location item).Exportless := by
    intro item
    unfold requiredProperty
    split <;> rfl
  unfold fromRequired
  split
  · rfl
  · exact exportless_bind (exportless_each hproperty _) fun properties => rfl
  · rfl

private theorem exportless_fromEnum (scope : Scope) (location : Location) (schema : Document) :
    (fromEnum scope location schema).Exportless := by
  have hmember : ∀ item, (enumMember scope location item).Exportless := by
    intro item
    unfold enumMember
    split
    · exact exportless_nullCodec scope
    · split <;> rfl
  unfold fromEnum
  split
  · rfl
  · exact exportless_bind (exportless_each hmember _) fun codecs => rfl
  · rfl

private theorem exportless_fromConst (location : Location) (schema : Document) :
    (fromConst location schema).Exportless := by
  unfold fromConst
  split
  · rfl
  · split <;> rfl

private theorem exportless_compose (location : Location) (schema : Document) (codecs : List Codec) :
    (compose location schema codecs).Exportless := by
  unfold compose
  split
  · split <;> rfl
  · rfl
  · rfl

/-! Keywords with schemas inside. -/

section

variable {convert : Converter}

private theorem exportless_valueUnder (type keyword : String) (problem : Fault.Problem)
    (location : Location) (schema : Document) :
    (valueUnder type keyword problem location schema).Exportless := by
  unfold valueUnder
  split
  · rfl
  · split <;> rfl

private theorem exportless_schemaMap (keyword : String) (location : Location) (schema : Document) :
    (schemaMap keyword location schema).Exportless := by
  apply exportless_bind (exportless_valueUnder ..)
  intro value
  split <;> rfl

private theorem exportless_convertMap (h : ∀ place part, (convert place part).Exportless)
    (keyword : String) (location : Location) (members : List (String × Document)) :
    (convertMap convert keyword location members).Exportless := by
  apply exportless_each
  intro member
  exact exportless_bind (h ..) fun codec => rfl

private theorem exportless_convertList (h : ∀ place part, (convert place part).Exportless)
    (keyword : String) (location : Location) (schemas : List Document) :
    (convertList convert keyword location schemas).Exportless := by
  apply exportless_each
  intro item
  exact h ..

private theorem exportless_fromObject (h : ∀ place part, (convert place part).Exportless)
    (location : Location) (schema : Document) :
    (fromObject convert location schema).Exportless := by
  have hproperties : (fromProperties convert location schema).Exportless := by
    apply exportless_bind (exportless_schemaMap ..)
    intro value
    cases value with
    | none => rfl
    | some members => exact exportless_bind (exportless_convertMap h ..) fun codecs => rfl
  have hnames : (fromPropertyNames convert location schema).Exportless := by
    apply exportless_bind (exportless_valueUnder ..)
    intro value
    cases value with
    | none => rfl
    | some names => exact exportless_bind (h ..) fun domain => rfl
  have hpatterns : (fromPatternProperties convert location schema).Exportless := by
    apply exportless_bind (exportless_schemaMap ..)
    intro value
    cases value with
    | none => rfl
    | some patterns =>
        refine exportless_bind rfl fun _ => ?_
        apply exportless_bind (exportless_convertMap h ..)
        intro named
        exact exportless_bind (exportless_convertMap h ..) fun matched => rfl
  have hadditional : (fromAdditionalProperties convert location schema).Exportless := by
    apply exportless_bind (exportless_valueUnder ..)
    intro value
    split
    · rfl
    · rfl
    · exact exportless_bind (h ..) fun codec => rfl
  apply exportless_bind hproperties
  intro properties
  apply exportless_bind hnames
  intro names
  apply exportless_bind hpatterns
  intro patterns
  apply exportless_bind hadditional
  intro others
  exact exportless_bind (exportless_fromRequired ..) fun required => rfl

private theorem exportless_fromArray (h : ∀ place part, (convert place part).Exportless)
    (location : Location) (schema : Document) :
    (fromArray convert location schema).Exportless := by
  have hitems : (fromItems convert location schema).Exportless := by
    apply exportless_bind (exportless_valueUnder ..)
    intro value
    split
    · rfl
    · rfl
    · rfl
    · split
      · exact exportless_bind (exportless_convertList h ..) fun codecs => rfl
      · rfl
    · exact exportless_bind (h ..) fun codec => rfl
  apply exportless_bind hitems
  intro codecs
  exact exportless_reportIf rfl

private theorem exportless_fromAll (h : ∀ place part, (convert place part).Exportless)
    (keyword : String) (location : Location) (schema : Document) :
    (fromAll convert keyword location schema).Exportless := by
  unfold fromAll
  split
  · rfl
  · exact exportless_convertList h ..
  · rfl

private theorem exportless_contributions (h : ∀ place part, (convert place part).Exportless)
    (scope : Scope) (location : Location) (schema : Document) :
    (contributions scope convert location schema).Exportless := by
  apply exportless_bind (exportless_fromType ..)
  intro types
  apply exportless_bind (exportless_fromObject h ..)
  intro object
  apply exportless_bind (exportless_fromArray h ..)
  intro array
  apply exportless_bind (exportless_fromEnum ..)
  intro enum
  apply exportless_bind (exportless_fromConst ..)
  intro const
  apply exportless_bind (exportless_fromAll h ..)
  intro allOf
  apply exportless_bind (exportless_fromAll h ..)
  intro anyOf
  exact exportless_bind (exportless_fromAll h ..) fun oneOf => rfl

private theorem exportless_compileBy (h : ∀ place part, (convert place part).Exportless)
    (scope : Scope) (isTop : Bool) (location : Location) (schema : Document) :
    (compileBy convert scope isTop location schema).Exportless := by
  unfold compileBy
  split
  · rfl
  · apply exportless_bind (exportless_reportKeywords ..)
    intro _
    apply exportless_bind (exportless_referenceAt ..)
    intro reference
    cases reference with
    | some text => exact exportless_fromReference ..
    | none =>
        refine exportless_bind rfl fun _ => ?_
        exact exportless_bind (exportless_contributions h ..) fun codecs => exportless_compose ..
  · rfl

end

private theorem exportless_compileWithin (scope : Scope) (depth : Nat) (isTop : Bool)
    (location : Location) (schema : Document) :
    (compileWithin scope depth isTop location schema).Exportless := by
  induction depth generalizing isTop location schema with
  | zero => rfl
  | succ depth ih => exact exportless_compileBy (ih false) scope isTop location schema

theorem exportless_compile (scope : Scope) (isTop : Bool) (location : Location)
    (schema : Document) : (compile scope isTop location schema).Exportless :=
  exportless_compileWithin ..

theorem exportless_brand (name : String) (codec : Codec) (schema : Document) :
    (brand name codec schema).Exportless := by
  have hcondition : (condition schema).Exportless := by
    unfold condition
    split
    · exact exportless_bind (exportless_warnAll _) fun _ => rfl
    · rfl
  exact exportless_bind hcondition fun condition => rfl

theorem exportless_define (scope : Scope) (location : Location) (name : String)
    (schema : Document) : (define scope location name schema).Exportless := by
  have hcodec : (definitionCodec scope location name schema).Exportless := by
    unfold definitionCodec
    split
    · exact exportless_bind (exportless_compile ..) fun inner => rfl
    · apply exportless_bind (exportless_referenceAt ..)
      intro reference
      cases reference with
      | some text => exact exportless_bind (exportless_fromReference ..) fun inner => rfl
      | none => exact exportless_bind (exportless_compile ..) fun inner => exportless_brand ..
  apply exportless_bind (exportless_ofExcept _)
  intro metadata
  exact exportless_bind hcodec fun codec => rfl

theorem exportless_defineRoot (scope : Scope) (name : String) (schema : Document) :
    (defineRoot scope name schema).Exportless := by
  have hroot : (rootCodec scope schema).Exportless := by
    apply exportless_bind (exportless_referenceAt ..)
    intro reference
    cases reference with
    | some text => rfl
    | none => exact exportless_compile ..
  apply exportless_bind (exportless_ofExcept _)
  intro metadata
  apply exportless_bind hroot
  intro inner
  exact exportless_bind (exportless_brand ..) fun codec => rfl

end SchemaCodec.Conversion
