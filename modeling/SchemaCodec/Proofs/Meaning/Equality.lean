import Mathlib.Algebra.Field.Rat
import SchemaCodec.Decimal.Numeral
import SchemaCodec.Document.Basic
import SchemaCodec.Text.Cut

namespace SchemaCodec

/-! Equality of JSON values: numbers count by their value, and the order of members does not
matter. -/

namespace Number

open Decimal

def mantissa? (text : List Char) : Option ℚ :=
  match Text.cut? '.' text with
  | none => (Numeral.digits? 10 text).map Nat.cast
  | some (whole, fraction) => do
    let whole ← Numeral.digits? 10 whole
    let part ← Numeral.digits? 10 fraction
    return whole + part / 10 ^ fraction.length

def exponent? (text : List Char) : Option ℤ :=
  let (negative, digits) := Numeral.splitSign text
  (Numeral.digits? 10 digits).map fun size => if negative then -(size : ℤ) else size

def magnitude? (text : List Char) : Option ℚ :=
  let isMark (c : Char) := c == 'e' || c == 'E'
  match text.dropWhile (!isMark ·) with
  | [] => mantissa? text
  | _ :: power => do
    let mantissa ← mantissa? (text.takeWhile (!isMark ·))
    let exponent ← exponent? power
    return mantissa * 10 ^ exponent

/-- The value of a number in its written form, if it has one. -/
def value? (text : String) : Option ℚ :=
  match text.toList with
  | '-' :: rest => (magnitude? rest).map Neg.neg
  | rest => magnitude? rest

def ofBinary64? : Binary64 → Option ℚ
  | .finite negative mantissa exponent =>
    some ((if negative then -1 else 1) * mantissa * 2 ^ exponent)
  | _ => none

/-- Two written forms stand for one number. -/
def Same (first second : String) : Prop :=
  first = second ∨ ∃ number, value? first = some number ∧ value? second = some number

end Number

namespace Document

mutual

/-- Two documents are equal as JSON values. -/
def Same : Document → Document → Prop
  | .null, .null => True
  | .bool first, .bool second => first = second
  | .number first, .number second => Number.Same first second
  | .string first, .string second => first = second
  | .array first, .array second => SameItems first second
  | .object first, .object second =>
    SameMembers first (.object second) ∧
      ∀ key ∈ (Document.object second).keys, key ∈ (Document.object first).keys
  | _, _ => False

def SameItems : List Document → List Document → Prop
  | [], [] => True
  | first :: firsts, second :: seconds => first.Same second ∧ SameItems firsts seconds
  | _, _ => False

def SameMembers : List (String × Document) → Document → Prop
  | [], _ => True
  | (key, value) :: rest, other =>
    (∃ found, other.get? key = some found ∧ value.Same found) ∧ SameMembers rest other

end

@[simp] theorem same_null {value : Document} : Same .null value ↔ value = .null := by
  cases value with
  | null => exact iff_of_true trivial rfl
  | _ => exact iff_of_false id nofun

@[simp] theorem same_bool {flag : Bool} {value : Document} :
    Same (.bool flag) value ↔ value = .bool flag := by
  cases value with
  | bool other => exact ⟨fun h => congrArg bool (Eq.symm h), fun h => (bool.inj h).symm⟩
  | _ => exact iff_of_false id nofun

@[simp] theorem same_string {text : String} {value : Document} :
    Same (.string text) value ↔ value = .string text := by
  cases value with
  | string other => exact ⟨fun h => congrArg string (Eq.symm h), fun h => (string.inj h).symm⟩
  | _ => exact iff_of_false id nofun

@[simp] theorem same_number {text : String} {value : Document} :
    Same (.number text) value ↔ ∃ other, value = .number other ∧ Number.Same text other := by
  cases value with
  | number other =>
      refine ⟨fun h => ⟨other, rfl, h⟩, ?_⟩
      rintro ⟨_, heq, h⟩
      cases heq
      exact h
  | _ => exact iff_of_false id nofun

end Document

end SchemaCodec
