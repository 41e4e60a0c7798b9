import SchemaCodec.Conversion.Definition
import SchemaCodec.Proofs.Conversion.Accounting
import SchemaCodec.Proofs.Conversion.Trace

namespace SchemaCodec.Conversion

open Codec

/-! Every conversion of a schema provides for what its codec refers to, and for nothing else. -/

variable {scope : Scope} {convert : Converter} {location : Location} {schema : Document}
  {events : List Event} {codecs : List Codec}

private theorem accounts_fromTypeName {type : Document} {name : String}
    (h : (fromTypeName scope schema type name).Leaves events codecs) :
    Accounts scope events codecs := by
  unfold fromTypeName at h
  split at h
  case h_5 =>
    simp only [leaves_bind, leaves_return] at h
    obtain ⟨before, codec, after, hcodec, ⟨rfl, rfl⟩, rfl⟩ := h
    rw [List.append_nil]
    exact accounts_nullCodec hcodec
  case h_6 =>
    obtain ⟨rfl, rfl⟩ := leaves_pure.1 h
    split
    · exact .nil
    · exact .wrap rfl .nil
  case h_7 =>
    obtain ⟨rfl, rfl⟩ := leaves_pure.1 h
    split
    · exact .nil
    · exact .wrap rfl .nil
  case h_8 =>
    simp only [leaves_bind, leaves_warn, leaves_return] at h
    obtain ⟨before, -, after, rfl, ⟨rfl, rfl⟩, rfl⟩ := h
    exact .after_demandless (demandless_reported _) (.wrap rfl .nil)
  all_goals
    obtain ⟨rfl, rfl⟩ := leaves_pure.1 h
    exact .wrap rfl .nil

private theorem accounts_fromType (h : (fromType scope schema).Leaves events codecs) :
    Accounts scope events codecs := by
  rcases trace_fromType h with ⟨-, rfl, rfl⟩ | ⟨type, parts, -, hparts, rfl⟩
  · exact .nil
  · have haccounts := accounts_each id
      (fun name events codecs hname => accounts_fromTypeName hname) hparts
    rw [List.flatMap_id] at haccounts
    exact haccounts.unite

def Provides (scope : Scope) (convert : Converter) : Prop :=
  ∀ location schema events codec, (convert location schema).Leaves events codec →
    Accounts scope events [codec]

section Parts

variable (hconvert : Provides scope convert)

include hconvert

private theorem accounts_convertMap {keyword : String} {members : List (String × Document)}
    {parts : List (String × Codec)}
    (h : (convertMap convert keyword location members).Leaves events parts) :
    Accounts scope events (parts.map Prod.snd) := by
  rw [List.map_eq_flatMap]
  apply accounts_each (fun part => [part.2]) _ h
  intro member events part hpart
  simp only [leaves_bind, leaves_return] at hpart
  obtain ⟨before, codec, after, hcodec, ⟨rfl, rfl⟩, rfl⟩ := hpart
  rw [List.append_nil]
  exact hconvert _ _ _ _ hcodec

private theorem accounts_convertList {keyword : String} {schemas : List Document}
    (h : (convertList convert keyword location schemas).Leaves events codecs) :
    Accounts scope events codecs := by
  rw [← List.flatMap_singleton' codecs]
  exact accounts_each _ (fun item events codec hcodec => hconvert _ _ _ _ hcodec) h

end Parts

/-! Objects -/

private theorem accounts_string : Accounts scope [] [string] :=
  .wrap rfl .nil

/-- Records from strings, of which there is one at most. -/
theorem accounts_records (h : Accounts scope events codecs) :
    Accounts scope events ((unite codecs).map (.record .string)) := by
  have hrecord : ∀ codec, Accounts scope events [codec] →
      Accounts scope events [.record .string codec] := by
    intro codec hcodec
    exact .wrap rfl (accounts_string.append hcodec)
  have hunite := h.unite
  match codecs with
  | [] => exact hunite
  | [codec] => exact hrecord codec hunite
  | first :: second :: rest => exact hrecord _ hunite

section Parts

variable (hconvert : Provides scope convert)

include hconvert

private theorem accounts_fromProperties
    (h : (fromProperties convert location schema).Leaves events codecs) :
    Accounts scope events codecs := by
  rcases trace_fromProperties h with ⟨-, rfl, rfl⟩ | ⟨members, parts, -, hparts, rfl⟩
  · exact .nil
  · have hshape : Accounts scope events
        [.object .partialOf (parts.map fun part => .plain part.1 part.2)] := by
      apply Accounts.wrap rfl
      rw [children, List.map_map]
      exact accounts_convertMap hconvert hparts
    unfold propertiesCodec
    split
    · exact .wrap rfl hshape
    · exact hshape

private theorem accounts_fromPropertyNames
    (h : (fromPropertyNames convert location schema).Leaves events codecs) :
    Accounts scope events codecs := by
  rcases trace_fromPropertyNames h with ⟨-, rfl, rfl⟩ | ⟨names, domain, -, hdomain, rfl⟩
  · exact .nil
  · have hboth := (hconvert _ _ _ _ hdomain).append (.wrap rfl .nil : Accounts scope [] [unknown])
    rw [List.append_nil] at hboth
    exact .wrap rfl hboth

private theorem accounts_fromPatternProperties
    (h : (fromPatternProperties convert location schema).Leaves events codecs) :
    Accounts scope events codecs := by
  rcases trace_fromPatternProperties h with
    ⟨-, rfl, rfl⟩ | ⟨patterns, named, matched, first, second, -, hnamed, hmatched, rfl, rfl⟩
  · exact .nil
  · have hboth := (accounts_convertMap hconvert hnamed).append
      (accounts_convertMap hconvert hmatched)
    rw [← List.map_append] at hboth
    exact .after_demandless (demandless_reported _) (accounts_records hboth)

private theorem accounts_fromAdditionalProperties
    (h : (fromAdditionalProperties convert location schema).Leaves events codecs) :
    Accounts scope events codecs := by
  rcases trace_fromAdditionalProperties h with ⟨-, rfl, rfl⟩ | ⟨value, codec, -, hcodec, rfl⟩
  · exact .nil
  · exact .wrap rfl (accounts_string.append (hconvert _ _ _ _ hcodec))

end Parts

private theorem accounts_requiredProperty {item : Document × Nat} {property : Property Codec}
    (h : (requiredProperty location item).Leaves events property) :
    Accounts scope events [property.type] := by
  apply accounts_helperCodec (trace_requiredProperty h)
  intro hnull
  cases hnull

private theorem accounts_fromRequired (h : (fromRequired location schema).Leaves events codecs) :
    Accounts scope events codecs := by
  rcases trace_fromRequired h with ⟨rfl, rfl⟩ | ⟨keys, properties, hproperties, rfl⟩
  · exact .nil
  · apply Accounts.wrap rfl
    rw [children, List.map_eq_flatMap]
    exact accounts_each (fun property => [property.type])
      (fun item events property hproperty => accounts_requiredProperty hproperty) hproperties

private theorem accounts_fromObject (hconvert : Provides scope convert)
    (h : (fromObject convert location schema).Leaves events codecs) :
    Accounts scope events codecs := by
  obtain ⟨e₁, e₂, e₃, e₄, e₅, properties, names, patterns, others, required, hproperties, hnames,
    hpatterns, hothers, hrequired, rfl, rfl⟩ := trace_fromObject h
  have hshapes := (((accounts_fromProperties hconvert hproperties).append
    (accounts_fromPropertyNames hconvert hnames)).append
    (accounts_fromPatternProperties hconvert hpatterns)).append
    (accounts_fromAdditionalProperties hconvert hothers)
  exact hshapes.intersect.append (accounts_fromRequired hrequired)

/-! Arrays -/

private theorem accounts_fromItems (hconvert : Provides scope convert)
    (h : (fromItems convert location schema).Leaves events codecs) :
    Accounts scope events codecs := by
  rcases trace_fromItems h with ⟨-, rfl, rfl⟩ | ⟨accepts, -, rfl, rfl⟩ |
    ⟨schemas, parts, -, hparts, rfl⟩ | ⟨item, codec, -, -, hcodec, rfl⟩
  · exact .nil
  · split
    · exact .nil
    · exact .wrap rfl .nil
  · exact .wrap rfl (accounts_convertList hconvert hparts)
  · exact .wrap rfl (hconvert _ _ _ _ hcodec)

private theorem accounts_fromArray (hconvert : Provides scope convert)
    (h : (fromArray convert location schema).Leaves events codecs) :
    Accounts scope events codecs := by
  simp only [fromArray, leaves_bind] at h
  obtain ⟨before, items, after, hitems, hcodecs, rfl⟩ := h
  obtain ⟨warned, last, hwarned, hlast, rfl⟩ := exists_of_reportIf hcodecs
  obtain ⟨rfl, rfl⟩ := leaves_return.1 hlast
  exact (accounts_fromItems hconvert hitems).before_demandless (hwarned.append demandless_nil)

/-! Values -/

private theorem accounts_enumMember {item : Document × Nat} {codec : Codec}
    (h : (enumMember scope location item).Leaves events codec) :
    Accounts scope events [codec] := by
  rcases trace_enumMember h with hnull | ⟨rfl, literal, rfl⟩
  · exact accounts_nullCodec hnull
  · exact .wrap rfl .nil

private theorem accounts_fromEnum (h : (fromEnum scope location schema).Leaves events codecs) :
    Accounts scope events codecs := by
  rcases trace_fromEnum h with ⟨rfl, rfl⟩ | ⟨values, members, hmembers, rfl⟩
  · exact .nil
  · have haccounts := accounts_each (fun codec => [codec])
      (fun item events codec hcodec => accounts_enumMember hcodec) hmembers
    rw [List.flatMap_singleton'] at haccounts
    exact haccounts.unite

private theorem accounts_fromConst (h : (fromConst location schema).Leaves events codecs) :
    Accounts scope events codecs := by
  obtain ⟨rfl, rfl | ⟨literal, rfl⟩⟩ := trace_fromConst h
  · exact .nil
  · exact .wrap rfl .nil

/-! Schemas -/

private theorem accounts_fromAll {keyword : String} (hconvert : Provides scope convert)
    (h : (fromAll convert keyword location schema).Leaves events codecs) :
    Accounts scope events codecs := by
  rcases trace_fromAll h with ⟨-, rfl, rfl⟩ | ⟨schemas, -, hschemas⟩
  · exact .nil
  · exact accounts_convertList hconvert hschemas

private theorem accounts_contributions (hconvert : Provides scope convert)
    (h : (contributions scope convert location schema).Leaves events codecs) :
    Accounts scope events codecs := by
  obtain ⟨e₁, e₂, e₃, e₄, e₅, e₆, e₇, e₈, types, object, array, enum, const, allOf, anyOf, oneOf,
    htypes, hobject, harray, henum, hconst, hallOf, hanyOf, honeOf, rfl, rfl⟩ :=
    trace_contributions h
  have hvalues := ((((accounts_fromType htypes).append (accounts_fromObject hconvert hobject)).append
    (accounts_fromArray hconvert harray)).append (accounts_fromEnum henum)).append
    (accounts_fromConst hconst)
  exact ((hvalues.append (accounts_fromAll hconvert hallOf).intersect).append
    (accounts_fromAll hconvert hanyOf).unite).append (accounts_fromAll hconvert honeOf).unite

private theorem accounts_compose {codec : Codec} (hcodecs : Accounts scope events codecs)
    (h : (compose location schema codecs).Leaves [] codec) :
    Accounts scope events [codec] := by
  rcases (trace_compose h).2 with ⟨rfl, rfl⟩ | rfl | rfl
  · have hunknown := hcodecs.append (.wrap rfl .nil : Accounts scope [] [unknown])
    rwa [List.append_nil] at hunknown
  · exact hcodecs
  · exact .wrap rfl hcodecs

private theorem accounts_errorCodec {message : String} {cause : Option String} {codec : Codec}
    (h : (errorCodec message cause).Leaves events codec) : Accounts scope events [codec] := by
  simp only [errorCodec, leaves_bind, leaves_report, leaves_return] at h
  obtain ⟨before, -, after, rfl, ⟨rfl, rfl⟩, rfl⟩ := h
  apply accounts_custom
  · exact .inr ⟨_, List.mem_cons_self, rfl⟩
  · intro requirement hmem
    exact absurd hmem (demandless_reported _ requirement)

private theorem accounts_fromReference {text : String} {codec : Codec}
    (h : (fromReference scope location schema text).Leaves events codec) :
    Accounts scope events [codec] := by
  unfold fromReference at h
  obtain ⟨before, after, hquiet, htarget, rfl⟩ := exists_of_reportIf h
  apply Accounts.after_demandless hquiet
  split at htarget
  case h_1 => exact accounts_errorCodec htarget
  case h_2 target hparse =>
    split at htarget
    case isTrue hlocal =>
      obtain ⟨rfl, rfl⟩ := leaves_return.1 htarget
      have hdefinition : Reference.parse text = .ok ⟨"", target.name⟩ := by
        rw [hparse, ← beq_iff_eq.1 hlocal]
      apply accounts_custom
      · exact .inl (.definition hdefinition)
      · intro requirement hmem
        cases hmem
    case isFalse hforeign =>
      split at htarget
      case h_1 => exact (leaves_fail.1 htarget).elim
      case h_2 name hname =>
        simp only [leaves_bind, leaves_require, leaves_return] at htarget
        obtain ⟨required, -, last, rfl, ⟨rfl, rfl⟩, rfl⟩ := htarget
        have hfile : target.file ≠ "" := fun hfile => hforeign (beq_iff_eq.2 hfile)
        apply accounts_custom
        · exact .inl (.imported hparse hfile hname List.mem_cons_self)
        · intro requirement hmem
          cases List.mem_singleton.1 hmem
          exact ⟨text, target, hparse, hname, rfl, occurs_singleton.2 (.inl rfl)⟩

theorem accounts_codecs : Accounts scope [.required .codecs] [] :=
  .required trivial

private theorem accounts_compileBy {isTop : Bool} {codec : Codec}
    (hconvert : Provides scope convert)
    (h : (compileBy convert scope isTop location schema).Leaves events codec) :
    Accounts scope events [codec] := by
  rcases trace_compileBy h with ⟨accepts, rfl, rfl, rfl⟩ |
    ⟨text, before, after, -, hkeywords, hcodec, rfl⟩ |
    ⟨before, after, codecs, -, hkeywords, hcodecs, hcompose, rfl⟩
  · apply accounts_codecs.append
    split
    · exact .wrap rfl .nil
    · exact .wrap rfl .nil
  · exact .after_demandless (demandless_reportKeywords hkeywords) (accounts_fromReference hcodec)
  · apply Accounts.after_demandless (demandless_reportKeywords hkeywords)
    apply accounts_codecs.append
    exact accounts_compose (accounts_contributions hconvert hcodecs) hcompose

private theorem provides_compileWithin (depth : Nat) (isTop : Bool) :
    Provides scope (compileWithin scope depth isTop) := by
  induction depth generalizing isTop with
  | zero =>
    intro location schema events codec h
    exact (leaves_fail.1 h).elim
  | succ depth ih =>
    intro location schema events codec h
    exact accounts_compileBy (ih false) h

theorem accounts_compile {isTop : Bool} {codec : Codec}
    (h : (compile scope isTop location schema).Leaves events codec) :
    Accounts scope events [codec] :=
  provides_compileWithin _ isTop _ _ _ _ h

/-! Definitions -/

theorem accounts_brand {name : String} {inner codec : Codec} {before : List Event}
    (hinner : Accounts scope before [inner])
    (h : (brand name inner schema).Leaves events codec) :
    Accounts scope (before ++ events) [codec] := by
  simp only [brand, leaves_bind, leaves_return] at h
  obtain ⟨middle, condition, after, hcondition, ⟨rfl, rfl⟩, rfl⟩ := h
  have hquiet : Demandless middle := by
    unfold Conversion.condition at hcondition
    split at hcondition
    · simp only [leaves_bind, leaves_return] at hcondition
      obtain ⟨first, _, last, hwarnings, ⟨rfl, -⟩, rfl⟩ := hcondition
      exact (demandless_warnAll hwarnings).append demandless_nil
    · exact (leaves_stop.1 hcondition).elim
  exact .wrap rfl (hinner.before_demandless (hquiet.append demandless_nil))

private theorem accounts_definitionCodec {name : String} {codec : Codec}
    (h : (definitionCodec scope location name schema).Leaves events codec) :
    Accounts scope events [codec] := by
  unfold definitionCodec at h
  split at h
  · simp only [leaves_bind, leaves_return] at h
    obtain ⟨before, inner, after, hinner, ⟨rfl, rfl⟩, rfl⟩ := h
    rw [List.append_nil]
    exact .wrap rfl (accounts_compile hinner)
  · simp only [leaves_bind] at h
    obtain ⟨before, text, after, htext, hcodec, rfl⟩ := h
    rw [events_referenceAt htext, List.nil_append]
    cases text with
    | some text =>
      simp only [leaves_bind, leaves_return] at hcodec
      obtain ⟨middle, inner, last, hinner, ⟨rfl, rfl⟩, rfl⟩ := hcodec
      rw [List.append_nil]
      exact .wrap rfl (accounts_fromReference hinner)
    | none =>
      simp only [leaves_bind] at hcodec
      obtain ⟨middle, inner, last, hinner, hbrand, rfl⟩ := hcodec
      exact accounts_brand (accounts_compile hinner) hbrand

private theorem demandless_defined (name : String) (isRoot : Bool) : Demandless
    [.defined name isRoot] := by
  intro requirement hmem
  cases List.mem_singleton.1 hmem

theorem accounts_define {name : String} {definition : Definition}
    (h : (define scope location name schema).Leaves events definition) :
    Accounts scope events [definition.declaration.type] := by
  simp only [define, leaves_bind, leaves_ofExcept, leaves_record, leaves_return] at h
  obtain ⟨before, metadata, after, ⟨rfl, -⟩, ⟨middle, codec, last, hcodec, ⟨final, -, none, rfl,
    ⟨rfl, rfl⟩, rfl⟩, rfl⟩, rfl⟩ := h
  rw [List.nil_append, List.append_nil]
  exact (accounts_definitionCodec hcodec).before_demandless (demandless_defined name false)

private theorem accounts_rootCodec {codec : Codec}
    (h : (rootCodec scope schema).Leaves events codec) :
    Accounts scope events [codec] := by
  simp only [rootCodec, leaves_bind] at h
  obtain ⟨before, text, after, htext, hcodec, rfl⟩ := h
  rw [events_referenceAt htext, List.nil_append]
  cases text with
  | some text => exact accounts_errorCodec hcodec
  | none => exact accounts_compile hcodec

theorem accounts_defineRoot {name : String} {definition : Definition}
    (h : (defineRoot scope name schema).Leaves events definition) :
    Accounts scope events [definition.declaration.type] := by
  simp only [defineRoot, leaves_bind, leaves_ofExcept, leaves_record, leaves_return] at h
  obtain ⟨before, metadata, after, ⟨rfl, -⟩, ⟨e₁, inner, -, hinner, ⟨e₂, codec, -, hcodec,
    ⟨e₃, -, -, rfl, ⟨rfl, rfl⟩, rfl⟩, rfl⟩, rfl⟩, rfl⟩ := h
  rw [List.nil_append, List.append_nil, ← List.append_assoc]
  exact (accounts_brand (accounts_rootCodec hinner) hcodec).before_demandless
    (demandless_defined name true)

end SchemaCodec.Conversion
