import SchemaCodec.Proofs.Meaning.Exactness

namespace SchemaCodec.Conversion

open Codec (Surroundings)
open Document (Rules Reading)

/-! A codec without a warning rejects nothing that its schema validates, except where keywords are
read more narrowly than the rules say. -/

/-- What a schema validates is accepted if its conversion gave no warning: all that it validates by
the narrow reading, and all that it validates if it has no place where the readings differ. -/
theorem accepts_of_calm {scope : Scope} {isTop : Bool} {location : Location}
    {schema : Document} {codec : Codec} (rules : Rules) (surroundings : Surroundings)
    (href : schema.Everywhere fun position => position.get? "$ref" = none)
    (h : (compile scope isTop location schema).Gives calm codec) (value : Document) :
    (schema.Validates rules .narrow value →
      schema.Validates rules .standard value ∧ codec.Accepts surroundings value) ∧
    (schema.Everywhere Unmixed →
      schema.Validates rules .standard value → codec.Accepts surroundings value) := by
  constructor
  · intro hvalid
    refine ⟨hvalid.standard, accepts_of_validates not_calm_warning href ?_ h hvalid⟩
    intro hreading
    cases hreading
  · intro hmixed hvalid
    exact accepts_of_validates not_calm_warning href (fun _ => hmixed) h hvalid

def bareRules : Rules :=
  ⟨fun _ _ => False, fun _ _ => False, fun _ _ => False⟩

def bareSurroundings : Surroundings :=
  ⟨fun _ _ => False, fun _ _ => False⟩

def textSchema : Document :=
  .object [("type", .string "string")]

def nullSchema : Document :=
  .object [("type", .string "null")]

def choiceSchema : Document :=
  .object [("oneOf", .array [textSchema, nullSchema])]

private theorem textSchema_not_validates : ¬ textSchema.Validates bareRules .standard .null := by
  have hgives : (compile bareScope true .root textSchema).Gives calm .string := ⟨rfl, by decide⟩
  have hrejects : ¬ Codec.string.Accepts bareSurroundings .null := by simp
  exact fun hvalid => hrejects ((accepts_iff_validates (by decide) hgives).mpr hvalid)

private theorem nullSchema_validates : nullSchema.Validates bareRules .standard .null := by
  have hgives : (compile bareScope true .root nullSchema).Gives calm .null := ⟨rfl, by decide⟩
  have haccepts : Codec.null.Accepts bareSurroundings .null := by simp
  exact (accepts_iff_validates (by decide) hgives).mp haccepts

private theorem choiceSchema_validates : choiceSchema.Validates bareRules .standard .null := by
  apply (Document.validates_object_iff rfl).mpr
  refine ⟨?_, ?_, ?_, ?_, ?_, ?_, ?_⟩
  · apply Document.asserts_of_unlimited (by decide)
    · intro type htype
      cases htype
    · intro list hlist
      cases hlist
    · intro item hitem
      cases hitem
    · intro list hlist
      cases hlist
  · intro part piece happlies
    cases happlies with
    | _ hfound => cases hfound
  · intro list hlist
    cases hlist
  · intro list hlist
    cases hlist
    refine ⟨⟨1, by decide⟩, nullSchema_validates, ?_⟩
    intro other hother
    match other with
    | ⟨0, _⟩ => exact absurd hother textSchema_not_validates
    | ⟨1, _⟩ => rfl
  · intro part hpart
    cases hpart
  · intro part hpart
    cases hpart
  · intro condition hcondition
    cases hcondition

theorem accepts_of_calm_choiceSchema :
    (choiceSchema.Everywhere fun position => position.get? "$ref" = none) ∧
      (compile bareScope true .root choiceSchema).Gives calm (.union [.string, .null]) ∧
      choiceSchema.Everywhere Unmixed ∧ choiceSchema.Validates bareRules .standard .null ∧
      (Codec.union [.string, .null]).Accepts bareSurroundings .null := by
  have href : choiceSchema.Everywhere fun position => position.get? "$ref" = none := by decide
  have hgives : (compile bareScope true .root choiceSchema).Gives calm
      (.union [.string, .null]) := ⟨rfl, by decide⟩
  have hmixed : choiceSchema.Everywhere Unmixed := by decide
  exact ⟨href, hgives, hmixed, choiceSchema_validates,
    (accepts_of_calm bareRules bareSurroundings href hgives .null).2 hmixed
      choiceSchema_validates⟩

/-! Where the readings differ, valid values are lost without a warning. -/

/-- A schema without references validates a value that its codec rejects, and nothing warns. -/
def Loses (rules : Rules) (surroundings : Surroundings) (scope : Scope)
    (schema value : Document) : Prop :=
  (schema.Everywhere fun position => position.get? "$ref" = none) ∧
    schema.Validates rules .standard value ∧
    ∃ codec, (compile scope true .root schema).Gives calm codec ∧
      ¬ codec.Accepts surroundings value

def sharedProperties : Document :=
  .object [("type", .string "object"), ("properties", .object [("a", .bool true)]),
    ("additionalProperties", .object [("type", .string "number")])]

def untypedRequired : Document :=
  .object [("required", .array [.string "a"])]

def closedItems : Document :=
  .object [("type", .string "array"), ("items", .array [.bool true]),
    ("additionalItems", .bool false)]

section

variable {rules : Rules} {surroundings : Surroundings}

/-- Only its types, its required keys and the schemas below it say what a schema validates. -/
theorem validates_of_absent {members : List (String × Document)} {value : Document}
    (habsent : ∀ keyword ∈ ["$ref", "enum", "const", "anyOf", "oneOf", "not", "contains", "if"] ++
      Document.limitKeywords, (Document.object members).get? keyword = none)
    (htype : ∀ type, (Document.object members).get? "type" = some type →
      ∃ name, .string name ∈ type.oneOrMany ∧ value.HasType name)
    (hrequired : ∀ list, (Document.object members).get? "required" = some list → ∀ found,
      value = .object found → ∀ key, .string key ∈ list.items → value.has key)
    (happlies : ∀ part piece, (Document.object members).Applies rules .standard value part piece →
      part.Validates rules .standard piece) :
    (Document.object members).Validates rules .standard value := by
  apply (Document.validates_object_iff (habsent "$ref" (by decide))).mpr
  apply Document.follows_of_unconditional
  · intro keyword hkeyword
    have hlisted : ∀ keyword ∈ ["oneOf", "not", "contains", "if"],
        keyword ∈ ["$ref", "enum", "const", "anyOf", "oneOf", "not", "contains", "if"] := by decide
    exact habsent keyword (List.mem_append_left _ (hlisted keyword hkeyword))
  · apply Document.asserts_of_unlimited _ htype _ _ hrequired
    · intro keyword hkeyword
      exact habsent keyword (List.mem_append_right _ hkeyword)
    · simp [habsent "enum" (by decide)]
    · simp [habsent "const" (by decide)]
  · exact happlies
  · simp [habsent "anyOf" (by decide)]

private theorem sharedProperties_loses :
    Loses rules surroundings bareScope sharedProperties (.object [("a", .null)]) := by
  refine ⟨by decide, ?_, _, ⟨rfl, by decide⟩, ?_⟩
  · apply validates_of_absent (by decide)
    · intro type htype
      cases htype
      exact ⟨"object", List.mem_singleton_self _, _, rfl⟩
    · intro list hlist
      cases hlist
    · intro part piece happlies
      cases happlies with
      | property hmap hpart =>
          cases hmap
          cases List.mem_singleton.mp hpart
          exact Document.validates_bool.mpr rfl
      | additionalProperty hpart hkey hpiece =>
          rcases hkey with hundeclared | ⟨hreading, -⟩
          · cases List.mem_singleton.mp hpiece
            exact absurd (.inl ⟨_, _, rfl, List.mem_singleton_self _⟩) hundeclared
          · cases hreading
      | _ hfound => cases hfound
  · simp

private theorem untypedRequired_loses :
    Loses rules surroundings bareScope untypedRequired .null := by
  refine ⟨by decide, ?_, _, ⟨rfl, by decide⟩, ?_⟩
  · apply validates_of_absent (by decide)
    · intro type htype
      cases htype
    · intro list hlist members hmembers
      cases hmembers
    · intro part piece happlies
      cases happlies with
      | _ hfound => cases hfound
  · simp

private theorem closedItems_loses :
    Loses rules surroundings bareScope closedItems (.array []) := by
  refine ⟨by decide, ?_, _, ⟨rfl, by decide⟩, ?_⟩
  · apply validates_of_absent (by decide)
    · intro type htype
      cases htype
      exact ⟨"array", List.mem_singleton_self _, _, rfl⟩
    · intro list hlist
      cases hlist
    · intro part piece happlies
      cases happlies with
      | item hpart hschema =>
          cases hpart
          exact absurd rfl (hschema _)
      | itemAt hschemas hitems hpiece =>
          cases hitems
          simp at hpiece
      | additionalItem hschemas hpart hitems hpiece =>
          cases hitems
          simp at hpiece
      | _ hfound => cases hfound
  · simp

end

theorem mixed_schemas_lose :
    Loses bareRules bareSurroundings bareScope sharedProperties (.object [("a", .null)]) ∧
      Loses bareRules bareSurroundings bareScope untypedRequired .null ∧
      Loses bareRules bareSurroundings bareScope closedItems (.array []) :=
  ⟨sharedProperties_loses, untypedRequired_loses, closedItems_loses⟩

end SchemaCodec.Conversion
