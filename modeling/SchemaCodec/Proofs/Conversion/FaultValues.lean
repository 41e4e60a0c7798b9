import SchemaCodec.Proofs.Conversion.FaultPlaces

namespace SchemaCodec.Conversion

/-! The value that a fault points to is the one that its rule speaks about. -/

/-- A rule speaks about a value inside a schema: which keyword leads to the value, and what is wrong
with it there. -/
inductive Concerns (scope : Scope) (schema : Document) : Fault.Rule → Pointer → Document → Prop
  | outsideObject {keyword : String} {value : Document} : keyword ∈ objectKeywords →
      schema.get? keyword = some value → schema.get? "type" ≠ some (.string "object") →
      Concerns scope schema .objectKeyword [keyword] value
  | outsideArray {value : Document} : schema.get? "items" = some value →
      schema.get? "type" ≠ some (.string "array") →
      Concerns scope schema .arrayKeyword ["items"] value
  | openTuple {value : Document} : schema.get? "items" = some value → value.kind = .array →
      schema.get? "additionalItems" ≠ some (.bool false) →
      Concerns scope schema .closedTuple ["items"] value
  | const {value : Document} : schema.get? "const" = some value →
      value.kind ∈ [.null, .array, .object] → Concerns scope schema .literalKind ["const"] value
  | enum {value : Document} : schema.get? "enum" = some value → value.kind ≠ .array →
      Concerns scope schema .literalKind ["enum"] value
  | enumItem {values : List Document} {index : Nat} {value : Document} :
      schema.get? "enum" = some (.array values) → values[index]? = some value →
      value.kind ∈ [.array, .object] →
      Concerns scope schema .literalKind ["enum", toString index] value
  | noSchema : schema.kind ∉ [.boolean, .object] → Concerns scope schema .representable [] schema
  | silence : schema.kind = .object → Silent scope schema →
      (Constraint.isConstrained schema || isAnnotation schema) = false →
      Concerns scope schema .representable [] schema
  | map {keyword : String} {value : Document} : keyword ∈ ["properties", "patternProperties"] →
      schema.get? keyword = some value → value.kind ≠ .object →
      Concerns scope schema .representable [keyword] value
  | list {keyword : String} {value : Document} : keyword ∈ "required" :: combiningKeywords →
      schema.get? keyword = some value → value.kind ≠ .array →
      Concerns scope schema .representable [keyword] value
  | requiredItem {keys : List Document} {index : Nat} {value : Document} :
      schema.get? "required" = some (.array keys) → keys[index]? = some value →
      value.kind ≠ .string → Concerns scope schema .representable ["required", toString index] value
  | reference {value : Document} : schema.get? "$ref" = some value → value.kind ≠ .string →
      Concerns scope schema .reference ["$ref"] value
  | importName {text : String} {target : Reference} {cause : Digest.UnknownAlgorithm} :
      schema.get? "$ref" = some (.string text) → Reference.parse text = .ok target →
      scope.resolver.importName target.file text = .error cause →
      Concerns scope schema (.hashAlgorithm cause) ["$ref"] (.string text)

private theorem kind_ne_array {value : Document} (h : value.isArray = false) :
    value.kind ≠ .array := by
  intro hkind
  rw [Document.isArray, hkind] at h
  cases h

private theorem kind_ne_object {value : Document} (h : value.isObject = false) :
    value.kind ≠ .object := by
  intro hkind
  rw [Document.isObject, hkind] at h
  cases h

private theorem kind_ne_string {value : Document} (h : value.string? = none) :
    value.kind ≠ .string := by
  cases value with
  | string text => cases h
  | _ => simp [Document.kind]

private theorem null_or_kind_of_literal? {value : Document} (h : literal? value = none) :
    value = .null ∨ value.kind ∈ [.array, .object] := by
  cases value with
  | null => exact .inl rfl
  | array items => exact .inr (by simp [Document.kind])
  | object members => exact .inr (by simp [Document.kind])
  | _ => cases h

private theorem at?_of_list {schema item : Document} {keyword : String} {items : List Document}
    {index : Nat} (hitems : schema.get? keyword = some (.array items))
    (hitem : items[index]? = some item) :
    schema.at? [keyword, toString index] = some item :=
  (Document.at?_append (Document.at?_of_get? hitems) [toString index]).trans
    (Document.at?_of_getElem? hitem)

private theorem ne_of_stringAt?_ne {schema : Document} {key text : String}
    (h : schema.stringAt? key ≠ some text) : schema.get? key ≠ some (.string text) :=
  mt Document.stringAt?_eq_some_iff.mpr h

/-- What breaks a rule is a value of the schema, and the rule speaks about it. -/
theorem Breaks.concerns {scope : Scope} {schema : Document} {steps : Pointer}
    {problem : Fault.Problem} (h : Breaks scope schema steps problem) :
    ∃ value, schema.at? steps = some value ∧ Concerns scope schema problem.rule steps value := by
  cases h with
  | notSchema hobject hbool =>
      refine ⟨schema, rfl, .noSchema ?_⟩
      have hkind := kind_ne_object hobject
      cases schema with
      | bool accepts => exact absurd rfl (hbool accepts)
      | object members => exact absurd rfl hkind
      | _ => simp [Document.kind]
  | withoutMeaning hobject hsilent hmeaning =>
      exact ⟨schema, rfl, .silence (beq_iff_eq.mp hobject) hsilent hmeaning⟩
  | outsideObject hkeyword hvalue htype =>
      exact ⟨_, Document.at?_of_get? hvalue,
        .outsideObject hkeyword hvalue (ne_of_stringAt?_ne htype)⟩
  | outsideArray hvalue htype =>
      exact ⟨_, Document.at?_of_get? hvalue, .outsideArray hvalue (ne_of_stringAt?_ne htype)⟩
  | notObject hkeyword hvalue hobject =>
      exact ⟨_, Document.at?_of_get? hvalue, .map hkeyword hvalue (kind_ne_object hobject)⟩
  | openTuple hvalue hopen =>
      refine ⟨_, Document.at?_of_get? hvalue, .openTuple hvalue rfl fun hclosed => ?_⟩
      rw [Document.falseAt_eq_true_iff.mpr hclosed] at hopen
      cases hopen
  | requiredNotArray hvalue harray =>
      exact ⟨_, Document.at?_of_get? hvalue,
        .list (List.mem_cons_self ..) hvalue (kind_ne_array harray)⟩
  | requiredNotString hkeys hkey hstring =>
      exact ⟨_, at?_of_list hkeys hkey, .requiredItem hkeys hkey (kind_ne_string hstring)⟩
  | enumNotArray hvalue harray =>
      exact ⟨_, Document.at?_of_get? hvalue, .enum hvalue (kind_ne_array harray)⟩
  | enumNotLiteral hvalues hvalue hnull hliteral =>
      exact ⟨_, at?_of_list hvalues hvalue,
        .enumItem hvalues hvalue ((null_or_kind_of_literal? hliteral).resolve_left hnull)⟩
  | constNotLiteral hvalue hliteral =>
      refine ⟨_, Document.at?_of_get? hvalue, .const hvalue ?_⟩
      rcases null_or_kind_of_literal? hliteral with rfl | hkind
      · exact List.mem_cons_self ..
      · exact List.mem_cons_of_mem _ hkind
  | notArray hkeyword hvalue harray =>
      exact ⟨_, Document.at?_of_get? hvalue,
        .list (List.mem_cons_of_mem _ hkeyword) hvalue (kind_ne_array harray)⟩
  | referenceNotString hvalue hstring =>
      exact ⟨_, Document.at?_of_get? hvalue, .reference hvalue (kind_ne_string hstring)⟩
  | importName hvalue htarget _ hcause =>
      exact ⟨_, Document.at?_of_get? hvalue, .importName hvalue htarget hcause⟩

/-- Some schema on the way to a fault breaks the rule by itself. -/
theorem Faulty.exists_owner {scope : Scope} {schema : Document} {steps : Pointer}
    {problem : Fault.Problem} (h : Faulty scope schema steps problem)
    (hkeys : ¬ schema.RepeatsKey) :
    ∃ front rest owner, steps = front ++ rest ∧ schema.at? front = some owner ∧
      Breaks scope owner rest problem := by
  induction h with
  | here hbreaks => exact ⟨[], _, _, rfl, rfl, hbreaks⟩
  | @inside schema part front _ _ hpart _ ih =>
      have hat := hpart.at? hkeys
      obtain ⟨middle, rest, owner, rfl, howner, hbreaks⟩ :=
        ih (Document.not_repeatsKey_of_at? hkeys hat)
      refine ⟨front ++ middle, rest, owner, (List.append_assoc ..).symm, ?_, hbreaks⟩
      rw [Document.at?_append hat, howner]

theorem path_down (location : Location) (steps : Pointer) :
    (location.down steps).path = location.path ++ Pointer.text steps := by
  have htext : ∀ before : Pointer,
      Pointer.text (before ++ steps) = Pointer.text before ++ Pointer.text steps := by
    intro before
    induction before with
    | nil => exact String.empty_append.symm
    | cons token rest ih =>
        rw [List.cons_append, Pointer.text, Pointer.text, ih]
        simp only [String.append_assoc]
  rw [Location.path, Location.path, Location.down, htext, String.append_assoc]

/-- If a schema without repeated keys cannot be converted, the fault has a place. Behind the place of
the schema itself, its path is a pointer to a value inside the schema, and that value is what the
rule that is broken speaks about. -/
theorem faults_point_to_their_values (scope : Scope) (isTop : Bool) (location : Location)
    {schema : Document} (hkeys : ¬ schema.RepeatsKey) {fault : Fault}
    (h : (compile scope isTop location schema).result = .error fault) :
    ∃ place suffix front rest owner value, fault = .located place ∧
      place.location.path = location.path ++ suffix ∧
      Pointer.ofText? suffix = some (front ++ rest) ∧
      schema.at? (front ++ rest) = some value ∧ schema.at? front = some owner ∧
      Concerns scope owner place.problem.rule rest value := by
  obtain ⟨steps, problem, rfl, hfaulty⟩ := failsOnly_compile scope isTop location schema fault h
  obtain ⟨front, rest, owner, rfl, howner, hbreaks⟩ := hfaulty.exists_owner hkeys
  obtain ⟨value, hvalue, hconcerns⟩ := hbreaks.concerns
  refine ⟨_, Pointer.text (front ++ rest), front, rest, owner, value, rfl, path_down _ _,
    Pointer.ofText?_text _, ?_, howner, hconcerns⟩
  rw [Document.at?_append howner, hvalue]

def listedSchema : Document :=
  .object [("type", .string "object"), ("properties", .object [("a~/b", .object [
    ("allOf", .array [.bool true, .object [("enum", .array [.string "x", .array []])]])])])]

def listedScope : Scope :=
  ⟨false, ⟨"", "", [], 0, ""⟩⟩

theorem faults_point_to_their_values_listedSchema :
    ∃ fault, ¬ listedSchema.RepeatsKey ∧
      (compile listedScope true (.ofPath "/definitions/d") listedSchema).result = .error fault ∧
      fault.message = "objects are not supported as part of ENUM: unsupported literal kind at " ++
        "/definitions/d/properties/a~0~1b/allOf/1/enum/1" ∧
      ∃ place suffix front rest owner value, fault = .located place ∧
        place.location.path = (Location.ofPath "/definitions/d").path ++ suffix ∧
        Pointer.ofText? suffix = some (front ++ rest) ∧
        listedSchema.at? (front ++ rest) = some value ∧ listedSchema.at? front = some owner ∧
        Concerns listedScope owner place.problem.rule rest value := by
  have hkeys : ¬ listedSchema.RepeatsKey := (Document.searched listedSchema []).mp rfl
  refine ⟨_, hkeys, rfl, by decide, ?_⟩
  exact faults_point_to_their_values listedScope true (.ofPath "/definitions/d") hkeys rfl

end SchemaCodec.Conversion
