import Mathlib.Data.List.Infix

namespace SchemaCodec.Text

/-! What ends comments and string literals in the source text of a script. -/

def isLineBreak (c : Char) : Bool :=
  c == '\n' || c == '\r' || c == '\u2028' || c == '\u2029'

/-- The text goes over no end of a line. -/
def OneLine (text : List Char) : Prop :=
  ∀ c ∈ text, isLineBreak c = false

/-- The text ends a comment that it stands in. -/
def Closes (text : List Char) : Prop :=
  ['*', '/'] <:+: text

/-- Nothing stands behind an end of the comment. -/
def ClosesAtEnd (text : List Char) : Prop :=
  ∀ before after, text = before ++ ['*', '/'] ++ after → after = []

/-- A single quote stands in the text without a backslash that escapes it. -/
def hasBareQuote : List Char → Bool
  | [] => false
  | '\\' :: _ :: rest => hasBareQuote rest
  | c :: rest => c == '\x27' || hasBareQuote rest

/-- A text that stands between two others without a part in an end of a comment. -/
def Seam (glue : List Char) : Prop :=
  glue.head?.any (· != '/') = true ∧ glue.getLast?.any (· != '*') = true ∧ ¬ Closes glue

instance (text : List Char) : Decidable (OneLine text) :=
  List.decidableBAll (fun c => isLineBreak c = false) text

instance (text : List Char) : Decidable (Closes text) :=
  inferInstanceAs (Decidable (_ <:+: _))

instance (glue : List Char) : Decidable (Seam glue) :=
  inferInstanceAs (Decidable (_ ∧ _))

theorem oneLine_append {first second : List Char} :
    OneLine (first ++ second) ↔ OneLine first ∧ OneLine second :=
  List.forall_mem_append

private theorem closes_cons {c : Char} {rest : List Char} :
    Closes (c :: rest) ↔ c = '*' ∧ rest.head? = some '/' ∨ Closes rest := by
  rw [Closes, List.infix_cons_iff, List.cons_prefix_cons]
  refine or_congr_left ?_
  cases rest with
  | nil => simp
  | cons next others => simp [List.cons_prefix_cons, eq_comm]

/-- No end of a comment comes from putting texts together that do not part it. -/
theorem closes_append {first second : List Char}
    (h : first.getLast? ≠ some '*' ∨ second.head? ≠ some '/') :
    Closes (first ++ second) ↔ Closes first ∨ Closes second := by
  induction first with
  | nil => simp [Closes]
  | cons c rest ih =>
      rw [List.cons_append, closes_cons, closes_cons]
      cases rest with
      | nil =>
          have hparts : ¬ (c = '*' ∧ second.head? = some '/') := by
            rintro ⟨rfl, hsecond⟩
            rcases h with hlast | hhead
            · exact hlast rfl
            · exact hhead hsecond
          simp [hparts, Closes]
      | cons next others =>
          rw [ih h]
          simp [or_assoc]

theorem closes_append_seam {first glue second : List Char} (h : Seam glue) :
    Closes (first ++ glue ++ second) ↔ Closes first ∨ Closes second := by
  obtain ⟨hhead, hlast, hglue⟩ := h
  rw [closes_append, closes_append, or_assoc, or_iff_right hglue]
  · right
    intro hslash
    rw [hslash] at hhead
    exact absurd hhead (by decide)
  · left
    intro hstar
    rw [List.getLast?_append] at hstar
    cases hend : glue.getLast? with
    | none =>
        rw [hend] at hlast
        cases hlast
    | some last =>
        rw [hend] at hlast hstar
        rw [Option.some.inj hstar] at hlast
        exact absurd hlast (by decide)

theorem closesAtEnd_append {text : List Char} :
    ClosesAtEnd (text ++ [' ', '*', '/']) ↔ ¬ Closes text := by
  constructor
  · rintro h ⟨before, after, rfl⟩
    have hrest := h before (after ++ [' ', '*', '/']) (by simp)
    simp at hrest
  · intro h before after heq
    rcases List.eq_nil_or_concat after with rfl | ⟨middle, last, rfl⟩
    · rfl
    · -- The end of the comment stands before the last character of the whole.
      have hinit : text ++ [' ', '*'] = before ++ ['*', '/'] ++ middle := by
        have hdrop := congrArg List.dropLast heq
        rwa [List.dropLast_append_of_ne_nil (by simp), List.dropLast_append_of_ne_nil (by simp),
          List.concat_eq_append, List.dropLast_concat] at hdrop
      have hcloses : Closes (text ++ [' ', '*']) := ⟨before, middle, hinit.symm⟩
      rcases (closes_append (.inr (by decide))).mp hcloses with htext | htail
      · exact absurd htext h
      · exact absurd htail (by decide)

end SchemaCodec.Text
