import Mathlib.Algebra.Order.BigOperators.Group.List
import Mathlib.Algebra.Order.Ring.Nat
import SchemaCodec.Proofs.Conversion.Trace
import SchemaCodec.Proofs.Document.Repetition

namespace SchemaCodec

/-! How often the keywords without a meaning are reported, over all schemas inside of a schema. -/

/-! Positions -/

namespace Document

/-- A schema and the schemas below it, level by level. Only the first can be at the top. -/
def descend (below : Document → List Document) : Nat → Bool → Document → List (Bool × Document)
  | 0, _, _ => []
  | levels + 1, isTop, schema =>
    (isTop, schema) :: (below schema).flatMap (descend below levels false)

/-- The schema itself and every schema inside it that takes part in its conversion. -/
def positions (schema : Document) (isTop : Bool) : List (Bool × Document) :=
  descend subschemas (schema.depth + 1) isTop schema

private theorem descend_congr {levels more : Nat} {isTop : Bool} {schema : Document}
    (hlevels : schema.depth < levels) (hmore : schema.depth < more) :
    descend subschemas levels isTop schema = descend subschemas more isTop schema := by
  induction levels generalizing more isTop schema with
  | zero => omega
  | succ levels ih =>
      obtain ⟨more, rfl⟩ : ∃ rest, more = rest + 1 := ⟨more - 1, by omega⟩
      rw [descend, descend]
      congr 1
      apply List.flatMap_congr
      intro part hpart
      have hdepth := depth_lt_of_mem_subschemas hpart
      exact ih (by omega) (by omega)

/-- No level is cut off. -/
theorem positions_unfold (schema : Document) (isTop : Bool) :
    schema.positions isTop =
      (isTop, schema) :: schema.subschemas.flatMap fun part => part.positions false := by
  rw [positions, descend]
  congr 1
  apply List.flatMap_congr
  intro part hpart
  exact descend_congr (depth_lt_of_mem_subschemas hpart) (Nat.lt_succ_self _)

end Document

namespace Conversion

/-! The texts of warnings -/

def isAbout (key : String) (report : Report) : Bool :=
  report = .warning (key ++ " field not supported") ||
    report = .warning (key ++ " field not supported outside top-level definitions")

private theorem append_ne_append {front back first second : String}
    (hfirst : ¬ first.toList <:+ second.toList) (hsecond : ¬ second.toList <:+ first.toList) :
    front ++ first ≠ back ++ second := by
  intro h
  have hsame : front.toList ++ first.toList = back.toList ++ second.toList := by
    rw [← String.toList_append, ← String.toList_append, h]
  rcases List.suffix_or_suffix_of_suffix ⟨front.toList, rfl⟩ ⟨back.toList, hsame.symm⟩ with h | h
  · exact hfirst h
  · exact hsecond h

private theorem isAbout_warning_iff {key text : String} :
    isAbout key (.warning text) = true ↔
      text = key ++ " field not supported" ∨
        text = key ++ " field not supported outside top-level definitions" := by
  simp [isAbout, Report.warning]

private theorem unsupportedText_cases (item kind : String) :
    unsupportedText item kind = item ++ (" " ++ kind ++ " not supported") ∨
      unsupportedText item kind =
        item ++ (" " ++ kind ++ " not supported outside top-level definitions") := by
  unfold unsupportedText
  split
  · exact .inr (by simp only [String.append_assoc]; rfl)
  · exact .inl (by simp only [String.append_assoc]; rfl)

private theorem isAbout_unsupportedText {key other : String} :
    isAbout key (.warning (unsupportedText other "field")) = true ↔ other = key := by
  have hfield : " " ++ "field" ++ " not supported" = " field not supported" := rfl
  have houtside : " " ++ "field" ++ " not supported outside top-level definitions" =
    " field not supported outside top-level definitions" := rfl
  rw [isAbout_warning_iff]
  rcases unsupportedText_cases other "field" with h | h
  · rw [h, hfield, String.append_left_inj]
    exact or_iff_left (append_ne_append (by decide) (by decide))
  · rw [h, houtside, String.append_left_inj]
    exact or_iff_right (append_ne_append (by decide) (by decide))

private theorem isAbout_contains {key : String} :
    isAbout key (.warning "contains field not supported") = true ↔ "contains" = key := by
  have htext : unsupportedText "contains" "field" = "contains field not supported" := by decide
  rw [← htext, isAbout_unsupportedText]

private theorem isAbout_unsupportedType {key type : String} :
    isAbout key (.warning (unsupportedText type "type")) = false := by
  rw [← Bool.not_eq_true, isAbout_warning_iff]
  rcases unsupportedText_cases type "type" with h | h
  · rw [h]
    rintro (htext | htext)
    · exact append_ne_append (by decide) (by decide) htext
    · exact append_ne_append (by decide) (by decide) htext
  · rw [h]
    rintro (htext | htext)
    · exact append_ne_append (by decide) (by decide) htext
    · exact append_ne_append (by decide) (by decide) htext

private theorem isAbout_eq_false {key text : String}
    (hfield : ¬ " field not supported".toList <:+ text.toList)
    (houtside : ¬ " field not supported outside top-level definitions".toList <:+ text.toList) :
    isAbout key (.warning text) = false := by
  rw [← Bool.not_eq_true, isAbout_warning_iff]
  rintro (rfl | rfl)
  · rw [String.toList_append] at hfield
    exact hfield (List.suffix_append _ _)
  · rw [String.toList_append] at houtside
    exact houtside (List.suffix_append _ _)

private theorem isAbout_patterns {key : String} :
    isAbout key (.warning "patternProperty support has limitations") = false :=
  isAbout_eq_false (by decide) (by decide)

private theorem isAbout_company {key : String} :
    isAbout key (.warning "unexpected key in a $ref object") = false :=
  isAbout_eq_false (by decide) (by decide)

private theorem isAbout_info {key text : String} : isAbout key (.info text) = false := by
  simp [isAbout, Report.info, Report.warning]

private theorem isAbout_error {key text : String} {cause : Option String} :
    isAbout key (.error text cause) = false := by
  simp [isAbout, Report.error, Report.warning]

/-! The warnings on record -/

def tally (key : String) (events : List Event) : Nat :=
  (events.filterMap Event.report?).countP (isAbout key)

section

variable {key : String} {events : List Event}

@[simp] theorem tally_nil : tally key [] = 0 :=
  rfl

@[simp] theorem tally_append {before after : List Event} :
    tally key (before ++ after) = tally key before + tally key after := by
  simp [tally]

@[simp] theorem tally_required {requirement : Requirement} :
    tally key [.required requirement] = 0 :=
  rfl

private theorem tally_reported {report : Report} :
    tally key [.reported report] = if isAbout key report then 1 else 0 := by
  change List.countP (isAbout key) [report] = _
  rw [List.countP_singleton]

private theorem tally_reported_eq_zero {report : Report} (h : isAbout key report = false) :
    tally key [.reported report] = 0 := by
  rw [tally_reported, h]
  rfl

private theorem tally_reportIf {condition : Prop} [Decidable condition] {note : Report}
    {rest : Conversion α} {value : α}
    (h : (if condition then do report note; rest else rest).Leaves events value) :
    ∃ after, rest.Leaves after value ∧
      tally key events = tally key after + if condition ∧ isAbout key note then 1 else 0 := by
  split at h
  · next hcondition =>
      simp only [leaves_bind, leaves_report] at h
      obtain ⟨before, -, after, rfl, hrest, rfl⟩ := h
      refine ⟨after, hrest, ?_⟩
      rw [tally_append, tally_reported, Nat.add_comm]
      simp [hcondition]
  · next hcondition => exact ⟨events, h, by simp [hcondition]⟩

private theorem tally_warnAll {messages : List String} {value : Unit}
    (h : (warnAll messages).Leaves events value) :
    tally key events = messages.countP fun message => isAbout key (.warning message) := by
  induction messages generalizing events with
  | nil =>
      obtain ⟨rfl, -⟩ := leaves_pure.1 h
      rfl
  | cons message rest ih =>
      simp only [warnAll, leaves_bind, leaves_warn] at h
      obtain ⟨before, -, after, rfl, hrest, rfl⟩ := h
      rw [tally_append, tally_reported, ih hrest, List.countP_cons, Nat.add_comm]

private theorem tally_each {convert : α → Conversion β} {items : List α} {values : List β}
    {weight : α → Nat}
    (hconvert : ∀ item part value, (convert item).Leaves part value → tally key part = weight item)
    (h : (each convert items).Leaves events values) :
    tally key events = (items.map weight).sum := by
  induction items generalizing events values with
  | nil =>
      obtain ⟨rfl, -⟩ := leaves_pure.1 h
      rfl
  | cons item rest ih =>
      simp only [each, leaves_bind, leaves_return] at h
      obtain ⟨before, first, after, hfirst, ⟨middle, others, last, hothers, ⟨rfl, -⟩, rfl⟩,
        rfl⟩ := h
      rw [List.map_cons, List.sum_cons, tally_append, tally_append, hconvert _ _ _ hfirst,
        ih hothers, tally_nil, Nat.add_zero]

private theorem tally_each_eq_zero {convert : α → Conversion β} {items : List α} {values : List β}
    (hconvert : ∀ item part value, (convert item).Leaves part value → tally key part = 0)
    (h : (each convert items).Leaves events values) : tally key events = 0 := by
  rw [tally_each hconvert h]
  simp

end

/-! Keywords without schemas inside -/

section

variable {key : String} {scope : Scope} {location : Location} {schema : Document}
  {events : List Event} {codecs : List Codec}

private theorem tally_reportKeywords {isTop : Bool} {value : Unit}
    (h : (reportKeywords isTop schema).Leaves events value) :
    tally key events = (schema.keys.filter fun other => !isAdmissible isTop other).count key := by
  have hkeywords : ∀ {after : List Event},
      (warnAll (unsupportedKeywords isTop schema)).Leaves after value →
      tally key after = (schema.keys.filter fun other => !isAdmissible isTop other).count key := by
    intro after hafter
    rw [tally_warnAll hafter, unsupportedKeywords, List.countP_map, List.count]
    apply List.countP_congr
    intro other _
    rw [Function.comp_apply, isAbout_unsupportedText, beq_iff_eq]
  unfold reportKeywords at h
  split at h
  · obtain ⟨after, hafter, htally⟩ := tally_reportIf h
    rw [htally, hkeywords hafter, isAbout_info]
    simp
  · simp only [leaves_bind, leaves_pure] at h
    obtain ⟨before, -, after, ⟨rfl, -⟩, hrest, rfl⟩ := h
    exact hkeywords hrest

private theorem tally_helperCodec {helper : Helper} {codec : Codec}
    (h : (helperCodec helper).Leaves events codec) : tally key events = 0 := by
  simp only [helperCodec, leaves_bind, leaves_require, leaves_return] at h
  obtain ⟨before, -, after, rfl, ⟨rfl, -⟩, rfl⟩ := h
  rfl

private theorem tally_nullCodec {codec : Codec} (h : (nullCodec scope).Leaves events codec) :
    tally key events = 0 := by
  unfold nullCodec at h
  split at h
  · exact tally_helperCodec h
  · obtain ⟨rfl, -⟩ := leaves_pure.1 h
    rfl

private theorem tally_fromType (h : (fromType scope schema).Leaves events codecs) :
    tally key events = 0 := by
  have hname : ∀ {type : Document} {name : String} {part : List Event} {codecs : List Codec},
      (fromTypeName scope schema type name).Leaves part codecs → tally key part = 0 := by
    intro type name part codecs h
    unfold fromTypeName at h
    split at h
    case h_5 =>
      simp only [leaves_bind, leaves_return] at h
      obtain ⟨before, codec, after, hcodec, ⟨rfl, -⟩, rfl⟩ := h
      rw [tally_append, tally_nullCodec hcodec, tally_nil]
    case h_8 =>
      simp only [leaves_bind, leaves_warn, leaves_return] at h
      obtain ⟨before, -, after, rfl, ⟨rfl, -⟩, rfl⟩ := h
      exact tally_reported_eq_zero isAbout_unsupportedType
    all_goals
      obtain ⟨rfl, -⟩ := leaves_pure.1 h
      rfl
  rcases trace_fromType h with ⟨-, rfl, -⟩ | ⟨type, parts, -, hparts, -⟩
  · rfl
  · exact tally_each_eq_zero (fun _ _ _ => hname) hparts

private theorem tally_fromRequired (h : (fromRequired location schema).Leaves events codecs) :
    tally key events = 0 := by
  rcases trace_fromRequired h with ⟨rfl, -⟩ | ⟨keys, properties, hproperties, -⟩
  · rfl
  · refine tally_each_eq_zero (fun item part property hproperty => ?_) hproperties
    exact tally_helperCodec (trace_requiredProperty hproperty)

private theorem tally_fromEnum (h : (fromEnum scope location schema).Leaves events codecs) :
    tally key events = 0 := by
  rcases trace_fromEnum h with ⟨rfl, -⟩ | ⟨values, members, hmembers, -⟩
  · rfl
  · refine tally_each_eq_zero (fun item part codec hcodec => ?_) hmembers
    rcases trace_enumMember hcodec with hnull | ⟨rfl, -⟩
    · exact tally_nullCodec hnull
    · rfl

private theorem tally_fromReference {text : String} {codec : Codec}
    (h : (fromReference scope location schema text).Leaves events codec) :
    tally key events = 0 := by
  unfold fromReference at h
  obtain ⟨after, htarget, htally⟩ := tally_reportIf h
  rw [htally, isAbout_company]
  split at htarget
  · simp only [errorCodec, leaves_bind, leaves_report, leaves_return] at htarget
    obtain ⟨before, -, last, rfl, ⟨rfl, -⟩, rfl⟩ := htarget
    simp [tally_reported, isAbout_error]
  · split at htarget
    · obtain ⟨rfl, -⟩ := leaves_return.1 htarget
      simp
    · split at htarget
      · exact (leaves_fail.1 htarget).elim
      · simp only [leaves_bind, leaves_require, leaves_return] at htarget
        obtain ⟨required, -, last, rfl, ⟨rfl, -⟩, rfl⟩ := htarget
        simp

end

/-! Keywords with schemas inside -/

section

-- The warnings about a schema inside are counted by a weight that booleans do not have.
variable {key : String} {scope : Scope} {location : Location} {schema : Document}
  {convert : Converter} {weight : Document → Nat} {events : List Event} {codecs : List Codec}
  (hconvert : ∀ place part events codec, (convert place part).Leaves events codec →
    tally key events = weight part)
include hconvert

private theorem tally_convertMap {keyword : String} {members : List (String × Document)}
    {parts : List (String × Codec)}
    (h : (convertMap convert keyword location members).Leaves events parts) :
    tally key events = ((members.map Prod.snd).map weight).sum := by
  rw [List.map_map]
  refine tally_each ?_ h
  intro member part value hpart
  simp only [leaves_bind, leaves_return] at hpart
  obtain ⟨before, codec, after, hcodec, ⟨rfl, -⟩, rfl⟩ := hpart
  rw [tally_append, hconvert _ _ _ _ hcodec, tally_nil, Nat.add_zero, Function.comp_apply]

private theorem tally_convertList {keyword : String} {schemas : List Document}
    (h : (convertList convert keyword location schemas).Leaves events codecs) :
    tally key events = (schemas.map weight).sum := by
  rw [← List.zipIdx_map_fst 0 schemas, List.map_map]
  exact tally_each (fun item part codec hcodec => hconvert _ _ _ _ hcodec) h

private theorem tally_fromProperties
    (h : (fromProperties convert location schema).Leaves events codecs) :
    tally key events = ((schema.schemasIn "properties").map weight).sum := by
  rw [Document.schemasIn]
  rcases trace_fromProperties h with ⟨hnone, rfl, -⟩ | ⟨members, parts, hmembers, hparts, -⟩
  · rw [hnone]
    rfl
  · rw [hmembers]
    exact tally_convertMap hconvert hparts

private theorem tally_fromPropertyNames
    (h : (fromPropertyNames convert location schema).Leaves events codecs) :
    tally key events = ((schema.get? "propertyNames").toList.map weight).sum := by
  rcases trace_fromPropertyNames h with ⟨hnone, rfl, -⟩ | ⟨names, domain, hnames, hdomain, -⟩
  · rw [hnone]
    rfl
  · rw [hnames, hconvert _ _ _ _ hdomain]
    simp

/-- The schemas that are converted a second time: those of properties, for the sake of patterns. -/
def again (schema : Document) : List Document :=
  if schema.has "patternProperties" then schema.schemasIn "properties" else []

private theorem tally_fromPatternProperties
    (h : (fromPatternProperties convert location schema).Leaves events codecs) :
    tally key events = ((again schema).map weight).sum +
      ((schema.schemasIn "patternProperties").map weight).sum := by
  rw [again, Document.has, Document.schemasIn, Document.schemasIn]
  rcases trace_fromPatternProperties h with ⟨hnone, rfl, -⟩ |
    ⟨patterns, named, matched, first, second, hpatterns, hnamed, hmatched, rfl, -⟩
  · rw [hnone]
    rfl
  · have hmembers : ((schema.get? "properties").getD .null).members =
        (schema.get? "properties").elim [] Document.members := by
      cases schema.get? "properties" <;> rfl
    have hwarned := tally_reported_eq_zero (@isAbout_patterns key)
    rw [hpatterns, ← List.singleton_append]
    simp only [tally_append, hwarned, tally_convertMap hconvert hnamed,
      tally_convertMap hconvert hmatched, hmembers]
    simp [Document.members]

private theorem tally_fromAdditionalProperties (hbool : ∀ accepts, weight (.bool accepts) = 0)
    (h : (fromAdditionalProperties convert location schema).Leaves events codecs) :
    tally key events = ((schema.get? "additionalProperties").toList.map weight).sum := by
  rcases trace_fromAdditionalProperties h with
    ⟨hnone | hfalse, rfl, -⟩ | ⟨value, codec, hvalue, hcodec, -⟩
  · rw [hnone]
    rfl
  · rw [hfalse]
    simp [hbool]
  · rw [hvalue, hconvert _ _ _ _ hcodec]
    simp

private theorem tally_fromItems (hbool : ∀ accepts, weight (.bool accepts) = 0)
    (h : (fromItems convert location schema).Leaves events codecs) :
    tally key events = (((schema.get? "items").elim [] Document.oneOrMany).map weight).sum := by
  rcases trace_fromItems h with ⟨hnone, rfl, -⟩ | ⟨accepts, haccepts, rfl, -⟩ |
    ⟨schemas, parts, hschemas, hparts, -⟩ | ⟨item, codec, hitem, hone, hcodec, -⟩
  · rw [hnone]
    rfl
  · rw [haccepts]
    simp [Document.oneOrMany, hbool]
  · rw [hschemas]
    exact tally_convertList hconvert hparts
  · rw [hitem, hconvert _ _ _ _ hcodec, Option.elim_some, hone]
    simp

private theorem tally_fromAll {keyword : String}
    (h : (fromAll convert keyword location schema).Leaves events codecs) :
    tally key events = ((schema.schemasOf keyword).map weight).sum := by
  rw [Document.schemasOf]
  rcases trace_fromAll h with ⟨hnone, rfl, -⟩ | ⟨schemas, hschemas, hcodecs⟩
  · rw [hnone]
    rfl
  · rw [hschemas]
    exact tally_convertList hconvert hcodecs

variable (hbool : ∀ accepts, weight (.bool accepts) = 0)
include hbool

private theorem tally_fromObject (h : (fromObject convert location schema).Leaves events codecs) :
    tally key events = ((schema.schemasIn "properties").map weight).sum +
      ((schema.get? "propertyNames").toList.map weight).sum +
      (((again schema).map weight).sum +
        ((schema.schemasIn "patternProperties").map weight).sum) +
      ((schema.get? "additionalProperties").toList.map weight).sum := by
  obtain ⟨e₁, e₂, e₃, e₄, e₅, properties, names, patterns, others, required, hproperties, hnames,
    hpatterns, hothers, hrequired, rfl, -⟩ := trace_fromObject h
  simp only [tally_append, tally_fromProperties hconvert hproperties,
    tally_fromPropertyNames hconvert hnames, tally_fromPatternProperties hconvert hpatterns,
    tally_fromAdditionalProperties hconvert hbool hothers, tally_fromRequired hrequired]
  omega

private theorem tally_fromArray (h : (fromArray convert location schema).Leaves events codecs) :
    tally key events = (((schema.get? "items").elim [] Document.oneOrMany).map weight).sum +
      if schema.has "contains" = true ∧ "contains" = key then 1 else 0 := by
  simp only [fromArray, leaves_bind] at h
  obtain ⟨before, items, after, hitems, hcodecs, rfl⟩ := h
  obtain ⟨last, hlast, htally⟩ := tally_reportIf hcodecs
  obtain ⟨rfl, -⟩ := leaves_return.1 hlast
  rw [tally_append, tally_fromItems hconvert hbool hitems, htally, tally_nil, Nat.zero_add]
  simp only [isAbout_contains]

end

/-- The schemas that a conversion turns to next, as often as it does. -/
def visited (schema : Document) : List Document :=
  if schema.has "$ref" then [] else schema.subschemas ++ again schema

/-- How many warnings about a keyword a schema itself gives rise to. -/
def mentions (key : String) (isTop : Bool) (schema : Document) : Nat :=
  (schema.keys.filter fun other => !isAdmissible isTop other).count key +
    if (schema.has "contains" = true ∧ "contains" = key) ∧ schema.has "$ref" = false then 1 else 0

section

variable {key : String} {scope : Scope} {location : Location} {schema : Document}
  {convert : Converter} {weight : Document → Nat} {events : List Event}
  (hconvert : ∀ place part events codec, (convert place part).Leaves events codec →
    tally key events = weight part)
  (hbool : ∀ accepts, weight (.bool accepts) = 0)
include hconvert hbool

private theorem tally_contributions {codecs : List Codec} (href : schema.has "$ref" = false)
    (h : (contributions scope convert location schema).Leaves events codecs) :
    tally key events = ((visited schema).map weight).sum +
      if schema.has "contains" = true ∧ "contains" = key then 1 else 0 := by
  obtain ⟨e₁, e₂, e₃, e₄, e₅, e₆, e₇, e₈, types, object, array, enum, const, allOf, anyOf, oneOf,
    htypes, hobject, harray, henum, hconst, hallOf, hanyOf, honeOf, rfl, -⟩ :=
    trace_contributions h
  obtain ⟨rfl, -⟩ := trace_fromConst hconst
  simp only [tally_append, tally_nil, tally_fromType htypes,
    tally_fromObject hconvert hbool hobject, tally_fromArray hconvert hbool harray,
    tally_fromEnum henum, tally_fromAll hconvert hallOf, tally_fromAll hconvert hanyOf,
    tally_fromAll hconvert honeOf]
  simp only [visited, Document.subschemas, href, Bool.false_eq_true, if_false, List.map_append,
    List.sum_append]
  omega

private theorem tally_compileBy {isTop : Bool} {codec : Codec}
    (h : (compileBy convert scope isTop location schema).Leaves events codec) :
    tally key events = mentions key isTop schema + ((visited schema).map weight).sum := by
  rcases trace_compileBy h with ⟨accepts, rfl, rfl, -⟩ |
    ⟨text, before, after, href, hkeywords, hcodec, rfl⟩ |
    ⟨before, after, codecs, href, hkeywords, hcodecs, -, rfl⟩
  · rfl
  · have hhas : schema.has "$ref" = true := by
      rw [Document.has, href]
      rfl
    rw [tally_append, tally_reportKeywords hkeywords, tally_fromReference hcodec, mentions, visited,
      if_pos hhas, hhas]
    simp
  · have hhas : schema.has "$ref" = false := Document.has_eq_false_iff.mpr href
    rw [tally_append, tally_reportKeywords hkeywords, ← List.singleton_append, tally_append,
      tally_required, tally_contributions hconvert hbool hhas hcodecs, mentions, hhas]
    simp only [and_true]
    omega

end

/-! Whole schemas -/

private theorem sum_descend {below : Document → List Document} {levels : Nat} {isTop : Bool}
    {schema : Document} {number : Bool × Document → Nat} :
    ((Document.descend below (levels + 1) isTop schema).map number).sum =
      number (isTop, schema) +
        ((below schema).map fun part =>
          ((Document.descend below levels false part).map number).sum).sum := by
  rw [Document.descend, List.map_cons, List.sum_cons, List.map_flatMap, List.flatMap_def,
    List.sum_flatten, List.map_map]
  rfl

private theorem tally_compileWithin {key : String} {scope : Scope} {location : Location}
    {levels : Nat}
    {isTop : Bool} {schema : Document} {events : List Event} {codec : Codec}
    (h : (compileWithin scope levels isTop location schema).Leaves events codec) :
    tally key events =
      ((Document.descend visited levels isTop schema).map fun position =>
        mentions key position.1 position.2).sum := by
  induction levels generalizing location isTop schema events codec with
  | zero => exact (leaves_fail.1 h).elim
  | succ levels ih =>
      -- The walk and the conversion both lose one level, so the sums over the parts are the weights.
      rw [sum_descend]
      refine tally_compileBy (fun place part events codec hpart => ih hpart) ?_ h
      intro accepts
      cases levels with
      | zero => rfl
      | succ levels =>
        rw [sum_descend]
        rfl

/-- A schema does not have properties beside patterns, or it is a reference and both are passed
over. -/
def PropertiesApart (schema : Document) : Prop :=
  schema.has "$ref" = true ∨ schema.has "patternProperties" = false ∨
    (schema.schemasIn "properties").isEmpty = true

instance : DecidablePred PropertiesApart :=
  fun _ => inferInstanceAs (Decidable (_ ∨ _ ∨ _))

private theorem visited_eq (schema : Document) :
    visited schema = schema.subschemas ++ if schema.has "$ref" then [] else again schema := by
  unfold visited Document.subschemas
  split <;> rfl

private theorem visited_eq_subschemas {schema : Document} (h : PropertiesApart schema) :
    visited schema = schema.subschemas := by
  rw [visited_eq, List.append_right_eq_self]
  rcases h with href | hpatterns | hproperties
  · rw [if_pos href]
  · rw [again, hpatterns]
    simp
  · rw [again, List.isEmpty_iff.mp hproperties]
    simp

section

variable {number : Bool × Document → Nat} {levels : Nat} {isTop : Bool} {schema : Document}

private theorem sum_subschemas_le :
    ((Document.descend Document.subschemas levels isTop schema).map number).sum ≤
      ((Document.descend visited levels isTop schema).map number).sum := by
  induction levels generalizing isTop schema with
  | zero => exact Nat.le_refl _
  | succ levels ih =>
      rw [sum_descend, sum_descend, visited_eq, List.map_append, List.sum_append]
      have hparts : (schema.subschemas.map fun part =>
            ((Document.descend Document.subschemas levels false part).map number).sum).sum ≤
          (schema.subschemas.map fun part =>
            ((Document.descend visited levels false part).map number).sum).sum :=
        List.sum_le_sum fun part _ => ih
      omega

private theorem sum_visited_eq (h : schema.Everywhere PropertiesApart) :
    ((Document.descend visited levels isTop schema).map number).sum =
      ((Document.descend Document.subschemas levels isTop schema).map number).sum := by
  induction levels generalizing isTop schema with
  | zero => rfl
  | succ levels ih =>
      rw [sum_descend, sum_descend, visited_eq_subschemas h.here]
      congr 2
      apply List.map_congr_left
      intro part hpart
      exact ih (h.below hpart)

end

/-! Each schema once -/

/-- Whether a schema gives rise to a warning about a keyword that it has: the keyword is not
admissible there, or it is `contains`, which is admissible but not supported, outside of a
reference. -/
def warnsAbout (key : String) (position : Bool × Document) : Bool :=
  position.2.has key &&
    (!isAdmissible position.1 key || key == "contains" && !position.2.has "$ref")

private theorem mentions_eq {key : String} {isTop : Bool} {schema : Document}
    (hkeys : schema.keys.Nodup) :
    mentions key isTop schema = if warnsAbout key (isTop, schema) then 1 else 0 := by
  have hmem : key ∈ schema.keys ↔ schema.has key = true := by
    rw [Document.has_eq_true_iff]
    exact ⟨Document.exists_get?_of_mem_keys, fun ⟨_, h⟩ => Document.mem_keys_of_get? h⟩
  have hcount : (schema.keys.filter fun other => !isAdmissible isTop other).count key =
      if schema.has key && !isAdmissible isTop key then 1 else 0 := by
    rw [List.Nodup.count (hkeys.filter _)]
    simp only [List.mem_filter, hmem, Bool.and_eq_true]
  rw [mentions, hcount, warnsAbout]
  by_cases hcontains : key = "contains"
  · subst hcontains
    have hadmissible : isAdmissible isTop "contains" = true := by
      cases isTop <;> decide
    cases schema.has "contains" <;> cases schema.has "$ref" <;> simp [hadmissible]
  · simp [hcontains, Ne.symm hcontains]

/-- Where no key is repeated, there is none twice in any position. -/
theorem not_repeatsKey_of_mem_positions {isTop : Bool} {schema : Document}
    (hkeys : ¬ schema.RepeatsKey) {position : Bool × Document}
    (h : position ∈ schema.positions isTop) : ¬ position.2.RepeatsKey := by
  induction schema using Document.subschemas_induction generalizing isTop with
  | step schema ih =>
      rw [Document.positions_unfold] at h
      rcases List.mem_cons.mp h with rfl | h
      · exact hkeys
      · obtain ⟨part, hpart, h⟩ := List.mem_flatMap.mp h
        exact ih part hpart (fun hrepeats => hkeys (.of_mem_subschemas hpart hrepeats)) h

private theorem sum_eq_countP {number : α → Nat} {holds : α → Bool} {items : List α}
    (h : ∀ item ∈ items, number item = if holds item then 1 else 0) :
    (items.map number).sum = items.countP holds := by
  induction items with
  | nil => rfl
  | cons item rest ih =>
      rw [List.forall_mem_cons] at h
      rw [List.map_cons, List.sum_cons, List.countP_cons, h.1, ih h.2, Nat.add_comm]

private theorem sum_mentions (isTop : Bool) {schema : Document} (key : String)
    (hkeys : ¬ schema.RepeatsKey) :
    ((schema.positions isTop).map fun position => mentions key position.1 position.2).sum =
      (schema.positions isTop).countP (warnsAbout key) := by
  apply sum_eq_countP
  intro position hposition
  exact mentions_eq (Document.keys_nodup (not_repeatsKey_of_mem_positions hkeys hposition))

/-- A conversion that succeeds warns of each keyword at least as often as there are schemas that
give rise to it, and just as often if no properties stand beside patterns. -/
theorem keywords_reported_for_positions (scope : Scope) (isTop : Bool) (location : Location)
    {schema : Document} (hkeys : ¬ schema.RepeatsKey) {codec : Codec}
    (h : (compile scope isTop location schema).result = .ok codec) (key : String) :
    (schema.positions isTop).countP (warnsAbout key) ≤
        (compile scope isTop location schema).reports.countP (isAbout key) ∧
      (schema.Everywhere PropertiesApart →
        (compile scope isTop location schema).reports.countP (isAbout key) =
          (schema.positions isTop).countP (warnsAbout key)) := by
  have htally : (compile scope isTop location schema).reports.countP (isAbout key) =
      ((Document.descend visited (schema.depth + 1) isTop schema).map fun position =>
        mentions key position.1 position.2).sum :=
    tally_compileWithin (leaves_events h)
  rw [htally, ← sum_mentions isTop key hkeys]
  exact ⟨sum_subschemas_le, sum_visited_eq⟩

def hallScope : Scope :=
  ⟨false, ⟨"", "", [], 0, ""⟩⟩

/-- The same keyword on three levels, once beside a bound that only has a meaning at the top. -/
def hallSchema : Document :=
  .object [("if", .bool true), ("minItems", .number "1"), ("allOf", .array [
    .object [("type", .string "array"), ("contains", .object []), ("if", .object [])],
    .object [("type", .string "object"), ("patternProperties", .object [
      ("^x", .object [("type", .string "boolean"), ("if", .null), ("minItems", .number "2")])])]])]

theorem keywords_reported_for_positions_hallSchema :
    ¬ hallSchema.RepeatsKey ∧ hallSchema.Everywhere PropertiesApart ∧
      (∃ codec, (compile hallScope true .root hallSchema).result = .ok codec) ∧
      (hallSchema.positions true).countP (warnsAbout "if") = 3 ∧
      (compile hallScope true .root hallSchema).reports.countP (isAbout "if") = 3 ∧
      (compile hallScope true .root hallSchema).reports.countP (isAbout "minItems") =
        (hallSchema.positions true).countP (warnsAbout "minItems") := by
  have hkeys : ¬ hallSchema.RepeatsKey := (Document.searched hallSchema []).mp rfl
  have hapart : hallSchema.Everywhere PropertiesApart := by decide
  have hcount : ∀ key, _ := keywords_reported_for_positions hallScope true .root hkeys rfl
  refine ⟨hkeys, hapart, ⟨_, rfl⟩, rfl, (hcount "if").2 hapart, (hcount "minItems").2 hapart⟩

def queueSchema : Document :=
  .object [("type", .string "array"), ("contains", .object [])]

/-- Patterns beside a property with a keyword that has no meaning. -/
def rackSchema : Document :=
  .object [("type", .string "object"),
    ("properties", .object [("a", .object [("type", .string "boolean"), ("if", .object [])])]),
    ("patternProperties", .object [])]

/-- There is a warning about `contains`, which is admissible. The property beside the patterns is
converted twice, with a warning each time. -/
theorem keyword_reports_miss_positions :
    ((queueSchema.positions true).countP fun position =>
        position.2.has "contains" && !isAdmissible position.1 "contains") = 0 ∧
      (compile hallScope true .root queueSchema).result = .ok .unknownArray ∧
      (compile hallScope true .root queueSchema).reports.countP (isAbout "contains") = 1 ∧
      ((rackSchema.positions true).countP fun position =>
        position.2.has "if" && !isAdmissible position.1 "if") = 1 ∧
      (∃ codec, (compile hallScope true .root rackSchema).result = .ok codec) ∧
      (compile hallScope true .root rackSchema).reports.countP (isAbout "if") = 2 :=
  ⟨rfl, rfl, rfl, rfl, ⟨_, rfl⟩, rfl⟩

end Conversion

end SchemaCodec
