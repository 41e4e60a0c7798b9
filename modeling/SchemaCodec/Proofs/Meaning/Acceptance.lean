import SchemaCodec.Codec.Basic
import SchemaCodec.Conversion.Basic
import SchemaCodec.Proofs.Conversion.Outcome
import SchemaCodec.Proofs.Meaning.Equality

namespace SchemaCodec

/-! The JSON values that a codec accepts. -/

/-- A helper accepts any value that is there, or null alone. -/
def Helper.Accepts : Helper → Document → Prop
  | .defined, _ => True
  | .null, value => value = .null

/-- The helper that source text without references stands for. -/
def Helper.ofText? (runtime : String) (dependencies : List String) : Option Helper :=
  if dependencies ≠ [] then none
  else if runtime = Helper.defined.name then some .defined
  else if runtime = Helper.null.name then some .null
  else none

private theorem Helper.ofText?_name (helper : Helper) : Helper.ofText? helper.name
    [] = some helper := by
  cases helper <;> decide

namespace Codec

def Primitive.Accepts : Primitive → Document → Prop
  | .string, value => ∃ text, value = .string text
  | .number, value => ∃ text, value = .number text
  | .boolean, value => ∃ flag, value = .bool flag
  | .null, value => value = .null
  | .unknown, _ => True
  | .never, _ => False
  | .unknownArray, value => ∃ items, value = .array items
  | .unknownRecord, value => ∃ members, value = .object members

def Literal.Accepts : Literal → Document → Prop
  | .string text, value => value = .string text
  | .number text, value => ∃ other, value = .number other ∧ Number.Same text other
  | .bool flag, value => value = .bool flag
  | .integer n, value => ∃ text, value = .number text ∧ Number.value? text = some (n : ℚ)
  | .float f, value =>
    ∃ text n, value = .number text ∧ Number.ofBinary64? f = some n ∧ Number.value? text = some n
  | .missing, _ => False

/-- What names and conditions stand for that are given as source text. -/
structure Surroundings where
  named : String → Document → Prop
  holds : Condition → Document → Prop

mutual

/-- The codec accepts a value. -/
def Accepts (surroundings : Surroundings) : Codec → Document → Prop
  | .hole, _ => False
  | .primitive p, value => p.Accepts value
  | .literal l, value => l.Accepts value
  | .object shape properties, value =>
    (∃ members, value = .object members) ∧
      PropertiesAccept surroundings (shape = .partialOf) properties value
  | .wrapper .array inner, value =>
    ∃ items, value = .array items ∧ ∀ item ∈ items, inner.Accepts surroundings item
  | .wrapper .readonlyArray inner, value =>
    ∃ items, value = .array items ∧ ∀ item ∈ items, inner.Accepts surroundings item
  | .wrapper .exact inner, value => inner.Accepts surroundings value
  | .wrapper .readonly inner, value => inner.Accepts surroundings value
  | .group .tuple members, value =>
    ∃ items, value = .array items ∧ EachAccepts surroundings members items
  | .group .intersection members, value => AllAccept surroundings members value
  | .group .union members, value => AnyAccepts surroundings members value
  | .group (.taggedUnion _) members, value => AnyAccepts surroundings members value
  | .record domain codomain, value =>
    ∃ members, value = .object members ∧ ∀ member ∈ members,
      domain.Accepts surroundings (.string member.1) ∧ codomain.Accepts surroundings member.2
  | .keyof keys, value => ∃ key ∈ keys, value = .string key
  | .identifier name, value => surroundings.named name value
  | .custom _ runtime dependencies, value =>
    match Helper.ofText? runtime dependencies with
    | some helper => helper.Accepts value
    | none => surroundings.named runtime value
  | .brand inner condition _, value =>
    inner.Accepts surroundings value ∧ surroundings.holds condition value

/-- Every listed property is of its type, where it may be left out only if that is allowed. -/
def PropertiesAccept (surroundings : Surroundings) (optional : Prop) :
    List (Property Codec) → Document → Prop
  | [], _ => True
  | ⟨key, type, _, _⟩ :: rest, value =>
    ((optional ∧ value.get? key = none) ∨
      ∃ part, value.get? key = some part ∧ type.Accepts surroundings part) ∧
      PropertiesAccept surroundings optional rest value

def EachAccepts (surroundings : Surroundings) : List Codec → List Document → Prop
  | [], [] => True
  | member :: members, item :: items =>
    member.Accepts surroundings item ∧ EachAccepts surroundings members items
  | _, _ => False

def AllAccept (surroundings : Surroundings) : List Codec → Document → Prop
  | [], _ => True
  | member :: members, value =>
    member.Accepts surroundings value ∧ AllAccept surroundings members value

def AnyAccepts (surroundings : Surroundings) : List Codec → Document → Prop
  | [], _ => False
  | member :: members, value =>
    member.Accepts surroundings value ∨ AnyAccepts surroundings members value

end

section

variable {surroundings : Surroundings} {value : Document}

@[simp] theorem accepts_string :
    string.Accepts surroundings value ↔ ∃ text, value = .string text :=
  Iff.rfl

@[simp] theorem accepts_number :
    number.Accepts surroundings value ↔ ∃ text, value = .number text :=
  Iff.rfl

@[simp] theorem accepts_boolean :
    boolean.Accepts surroundings value ↔ ∃ flag, value = .bool flag :=
  Iff.rfl

@[simp] theorem accepts_null : null.Accepts surroundings value ↔ value = .null :=
  Iff.rfl

@[simp] theorem accepts_unknown : unknown.Accepts surroundings value :=
  trivial

@[simp] theorem not_accepts_never : ¬ never.Accepts surroundings value :=
  id

@[simp] theorem accepts_unknownArray :
    unknownArray.Accepts surroundings value ↔ ∃ items, value = .array items :=
  Iff.rfl

@[simp] theorem accepts_unknownRecord :
    unknownRecord.Accepts surroundings value ↔ ∃ members, value = .object members :=
  Iff.rfl

@[simp] theorem accepts_array {item : Codec} :
    (array item).Accepts surroundings value ↔
      ∃ items, value = .array items ∧ ∀ part ∈ items, item.Accepts surroundings part :=
  Iff.rfl

@[simp] theorem accepts_exact {inner : Codec} :
    (exact inner).Accepts surroundings value ↔ inner.Accepts surroundings value :=
  Iff.rfl

private theorem allAccept_iff {members : List Codec} :
    AllAccept surroundings members value ↔
      ∀ member ∈ members, member.Accepts surroundings value := by
  induction members with
  | nil => exact ⟨fun _ => List.forall_mem_nil _, fun _ => trivial⟩
  | cons member rest ih =>
      rw [List.forall_mem_cons, ← ih]
      rfl

private theorem anyAccepts_iff {members : List Codec} :
    AnyAccepts surroundings members value ↔
      ∃ member ∈ members, member.Accepts surroundings value := by
  induction members with
  | nil => exact ⟨False.elim, by simp⟩
  | cons member rest ih =>
      simp only [List.mem_cons, exists_eq_or_imp, ← ih]
      rfl

@[simp] theorem accepts_union {members : List Codec} :
    (union members).Accepts surroundings value ↔
      ∃ member ∈ members, member.Accepts surroundings value :=
  anyAccepts_iff

@[simp] theorem accepts_intersection {members : List Codec} :
    (intersection members).Accepts surroundings value ↔
      ∀ member ∈ members, member.Accepts surroundings value :=
  allAccept_iff

private theorem eachAccepts_iff {members : List Codec} {items : List Document} :
    EachAccepts surroundings members items ↔
      List.Forall₂ (fun member item => member.Accepts surroundings item) members items := by
  induction members generalizing items with
  | nil =>
      cases items with
      | nil => exact ⟨fun _ => .nil, fun _ => trivial⟩
      | cons item items => exact ⟨False.elim, nofun⟩
  | cons member rest ih =>
      cases items with
      | nil => exact ⟨False.elim, nofun⟩
      | cons item items =>
          rw [List.forall₂_cons, ← ih]
          rfl

@[simp] theorem accepts_tuple {members : List Codec} :
    (tuple members).Accepts surroundings value ↔
      ∃ items, value = .array items ∧
        List.Forall₂ (fun member item => member.Accepts surroundings item) members items := by
  change (∃ items, value = .array items ∧ EachAccepts surroundings members items) ↔ _
  simp only [eachAccepts_iff]

@[simp] theorem accepts_record {domain codomain : Codec} :
    (record domain codomain).Accepts surroundings value ↔
      ∃ members, value = .object members ∧ ∀ member ∈ members,
        domain.Accepts surroundings (.string member.1) ∧
          codomain.Accepts surroundings member.2 :=
  Iff.rfl

private theorem propertiesAccept_iff {optional : Prop} {properties : List (Property Codec)} :
    PropertiesAccept surroundings optional properties value ↔
      ∀ property ∈ properties, (optional ∧ value.get? property.key = none) ∨
        ∃ part, value.get? property.key = some part ∧
          property.type.Accepts surroundings part := by
  induction properties with
  | nil => exact ⟨fun _ => List.forall_mem_nil _, fun _ => trivial⟩
  | cons property rest ih =>
      rw [List.forall_mem_cons, ← ih]
      rfl

private theorem accepts_object {shape : Shape} {properties : List (Property Codec)} :
    (object shape properties).Accepts surroundings value ↔
      (∃ members, value = .object members) ∧
        ∀ property ∈ properties, (shape = .partialOf ∧ value.get? property.key = none) ∨
          ∃ part, value.get? property.key = some part ∧
            property.type.Accepts surroundings part :=
  and_congr_right fun _ => propertiesAccept_iff

/-- The listed keys that are there are of their types. -/
@[simp] theorem accepts_partialOf {properties : List (Property Codec)} :
    (object .partialOf properties).Accepts surroundings value ↔
      (∃ members, value = .object members) ∧
        ∀ property ∈ properties, ∀ part, value.get? property.key = some part →
          property.type.Accepts surroundings part := by
  rw [accepts_object]
  refine and_congr_right fun _ => forall₂_congr fun property _ => ?_
  cases value.get? property.key <;> simp

/-- The listed keys are there and of their types. -/
@[simp] theorem accepts_interface {properties : List (Property Codec)} :
    (object .interface properties).Accepts surroundings value ↔
      (∃ members, value = .object members) ∧
        ∀ property ∈ properties, ∃ part, value.get? property.key = some part ∧
          property.type.Accepts surroundings part := by
  rw [accepts_object]
  simp

@[simp] theorem accepts_literal {l : Literal} :
    (literal l).Accepts surroundings value ↔ l.Accepts value :=
  Iff.rfl

@[simp] theorem accepts_helper {helper : Helper} :
    (custom helper.name helper.name []).Accepts surroundings value ↔ helper.Accepts value := by
  change (match Helper.ofText? helper.name [] with
    | some found => found.Accepts value
    | none => surroundings.named helper.name value) ↔ _
  rw [Helper.ofText?_name]

end

end Codec

end SchemaCodec
