import SchemaCodec.Document.Basic
import SchemaCodec.Text.Cut

namespace SchemaCodec.Json

/-! The grammar of JSON texts, with the document that each text denotes. An object may have a key
twice here: the grammar does not forbid it. -/

def Space (text : List Char) : Prop :=
  ∀ c ∈ text, c = ' ' ∨ c = '\t' ∨ c = '\n' ∨ c = '\r'

/-! Numbers -/

def Digits (text : List Char) : Prop :=
  text ≠ [] ∧ ∀ c ∈ text, c.isDigit = true

/-- Of several digits the first is not zero. -/
inductive Whole : List Char → Prop where
  | zero : Whole ['0']
  | digits {first : Char} {rest : List Char} :
      first.isDigit = true → first ≠ '0' → (∀ c ∈ rest, c.isDigit = true) → Whole (first :: rest)

inductive Fraction : List Char → Prop where
  | absent : Fraction []
  | digits {digits : List Char} : Digits digits → Fraction ('.' :: digits)

inductive Exponent : List Char → Prop where
  | absent : Exponent []
  | digits {mark : Char} {sign digits : List Char} :
      mark = 'e' ∨ mark = 'E' → sign = [] ∨ sign = ['+'] ∨ sign = ['-'] → Digits digits →
        Exponent (mark :: (sign ++ digits))

inductive Number : List Char → Prop where
  | parts {sign whole fraction exponent : List Char} :
      sign = [] ∨ sign = ['-'] → Whole whole → Fraction fraction → Exponent exponent →
        Number (sign ++ (whole ++ (fraction ++ exponent)))

/-! Strings -/

def hexDigit? (c : Char) : Option Nat :=
  if '0' ≤ c ∧ c ≤ '9' then some (c.toNat - '0'.toNat)
  else if 'a' ≤ c ∧ c ≤ 'f' then some (c.toNat - 'a'.toNat + 10)
  else if 'A' ≤ c ∧ c ≤ 'F' then some (c.toNat - 'A'.toNat + 10)
  else none

/-- A unit of sixteen bits, written as four hexadecimal digits behind `\u`. -/
inductive UnitEscape : List Char → Nat → Prop where
  | digits {a b c d : Char} {p q r s : Nat} :
      hexDigit? a = some p → hexDigit? b = some q → hexDigit? c = some r → hexDigit? d = some s →
        UnitEscape ['\\', 'u', a, b, c, d] (((p * 16 + q) * 16 + r) * 16 + s)

def IsHigh (unit : Nat) : Prop :=
  0xd800 ≤ unit ∧ unit < 0xdc00

def IsLow (unit : Nat) : Prop :=
  0xdc00 ≤ unit ∧ unit < 0xe000

instance (unit : Nat) : Decidable (IsHigh unit) :=
  inferInstanceAs (Decidable (_ ∧ _))

instance (unit : Nat) : Decidable (IsLow unit) :=
  inferInstanceAs (Decidable (_ ∧ _))

/-- The letters behind a backslash, with the characters they stand for. -/
def escapeLetters : List (Char × Char) :=
  [('"', '"'), ('\\', '\\'), ('/', '/'), ('b', '\x08'), ('f', '\x0c'), ('n', '\n'), ('r', '\r'),
   ('t', '\t')]

/-- The text between the quotation marks, and the characters it denotes. A surrogate that is not
part of a pair denotes the replacement character. -/
inductive Spells : List Char → List Char → Prop where
  | done : Spells [] []
  | plain {c : Char} {text chars : List Char} :
      0x20 ≤ c.toNat → c ≠ '"' → c ≠ '\\' → Spells text chars → Spells (c :: text) (c :: chars)
  | letter {e c : Char} {text chars : List Char} :
      (e, c) ∈ escapeLetters → Spells text chars → Spells ('\\' :: e :: text) (c :: chars)
  | unit {escape text chars : List Char} {unit : Nat} :
      UnitEscape escape unit → ¬ IsHigh unit → ¬ IsLow unit → Spells text chars →
        Spells (escape ++ text) (Char.ofNat unit :: chars)
  | pair {first second text chars : List Char} {high low : Nat} :
      UnitEscape first high → IsHigh high → UnitEscape second low → IsLow low →
        Spells text chars →
          Spells (first ++ (second ++ text))
            (Char.ofNat (0x10000 + (high - 0xd800) * 0x400 + (low - 0xdc00)) :: chars)
  | loneHigh {escape text chars : List Char} {unit : Nat} :
      UnitEscape escape unit → IsHigh unit →
        (∀ next low tail, text = next ++ tail → UnitEscape next low → ¬ IsLow low) →
          Spells text chars → Spells (escape ++ text) ('\uFFFD' :: chars)
  | loneLow {escape text chars : List Char} {unit : Nat} :
      UnitEscape escape unit → IsLow unit → Spells text chars →
        Spells (escape ++ text) ('\uFFFD' :: chars)

/-! Values -/

/-- The text of a value with the space around it, and what the value denotes. -/
structure Element where
  before : List Char
  text : List Char
  after : List Char
  value : Document

def Element.whole (element : Element) : List Char :=
  element.before ++ (element.text ++ element.after)

def Element.Spaced (element : Element) : Prop :=
  Space element.before ∧ Space element.after

/-- The text of a member: its key, with the space around it, and its value. -/
structure Member where
  before : List Char
  spelling : List Char
  after : List Char
  key : String
  element : Element

def Member.whole (member : Member) : List Char :=
  member.before ++ ('"' :: (member.spelling ++ ('"' :: (member.after ++
    (':' :: member.element.whole)))))

def Member.Spaced (member : Member) : Prop :=
  Space member.before ∧ Space member.after ∧ member.element.Spaced

def Member.entry (member : Member) : String × Document :=
  (member.key, member.element.value)

def arrayText (elements : List Element) : List Char :=
  '[' :: (Text.join [','] (elements.map Element.whole) ++ [']'])

def objectText (members : List Member) : List Char :=
  '\x7b' :: (Text.join [','] (members.map Member.whole) ++ ['\x7d'])

/-- The text of a value, and the document it denotes. -/
inductive Denotes : List Char → Document → Prop where
  | null : Denotes ['n', 'u', 'l', 'l'] .null
  | true : Denotes ['t', 'r', 'u', 'e'] (.bool true)
  | false : Denotes ['f', 'a', 'l', 's', 'e'] (.bool false)
  | number {text : List Char} : Number text → Denotes text (.number (String.ofList text))
  | string {spelling chars : List Char} :
      Spells spelling chars → Denotes ('"' :: (spelling ++ ['"'])) (.string (String.ofList chars))
  | emptyArray {space : List Char} : Space space → Denotes ('[' :: (space ++ [']'])) (.array [])
  | array {elements : List Element} :
      elements ≠ [] → (∀ element ∈ elements, element.Spaced) →
        (∀ element ∈ elements, Denotes element.text element.value) →
          Denotes (arrayText elements) (.array (elements.map Element.value))
  | emptyObject {space : List Char} :
      Space space → Denotes ('\x7b' :: (space ++ ['\x7d'])) (.object [])
  | object {members : List Member} :
      members ≠ [] → (∀ member ∈ members, member.Spaced) →
        (∀ member ∈ members, Spells member.spelling member.key.toList) →
        (∀ member ∈ members, Denotes member.element.text member.element.value) →
          Denotes (objectText members) (.object (members.map Member.entry))

def IsText (text : List Char) (d : Document) : Prop :=
  ∃ element : Element, element.Spaced ∧ Denotes element.text element.value ∧
    text = element.whole ∧ d = element.value

end SchemaCodec.Json
