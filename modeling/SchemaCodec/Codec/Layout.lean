namespace SchemaCodec.Codec

/-! Layouts: source text before line breaks and indentation are decided. -/

/-- A line of a block: a comment above it, a text in front, and the body. -/
structure Element (α : Type) where
  comment : String
  lead : String
  body : α

inductive Layout where
  | leaf (text : String)
  | wrap (opening : String) (inner : Layout) (closing : String)
  | pair (opening : String) (first : Layout) (between : String) (second : Layout)
      (closing : String)
  /-- Every element on lines of its own, one level deeper. -/
  | block (opening : String) (elements : List (Element Layout)) (separator closing : String)

namespace Layout

def indent (level : Nat) : List Char :=
  List.replicate (2 * level) ' '

/-- A description as a comment line; none if it is empty. -/
def comment (description : String) (level : Nat) : List Char :=
  if description = "" then []
  else indent level ++ "/** ".toList ++ description.toList ++ " */\n".toList

mutual

/-- The text of a layout whose first line is already indented by `level`. -/
def chars : Layout → (level : Nat) → List Char
  | .leaf text, _ => text.toList
  | .wrap opening inner closing, level => opening.toList ++ inner.chars level ++ closing.toList
  | .pair opening first between second closing, level =>
    opening.toList ++ first.chars level ++ between.toList ++ second.chars level ++ closing.toList
  | .block opening [] _ closing, _ => opening.toList ++ closing.toList
  | .block opening (element :: elements) separator closing, level =>
    opening.toList ++ '\n' :: elementsChars (element :: elements) separator (level + 1) ++
      '\n' :: indent level ++ closing.toList

def elementsChars : List (Element Layout) → (separator : String) → (level : Nat) → List Char
  | [], _, _ => []
  | [element], _, level => elementChars element level
  | element :: next :: elements, separator, level =>
    elementChars element level ++ separator.toList ++
      '\n' :: elementsChars (next :: elements) separator level

def elementChars : Element Layout → (level : Nat) → List Char
  | ⟨description, lead, body⟩, level =>
    comment description level ++ indent level ++ lead.toList ++ body.chars level

end

def text (layout : Layout) : String :=
  String.ofList (layout.chars 0)

end Layout

end SchemaCodec.Codec
