import SchemaCodec.Proofs.Text.Splitting

namespace SchemaCodec.Text

/-! The blanks in front of the lines of a text, and texts that agree in them. -/

def leadingSpaces (line : List Char) : Nat :=
  (line.takeWhile (· = ' ')).length

/-- The leading blanks of every line, in order. -/
def margins (text : List Char) : List Nat :=
  (splitOn '\n' text).map leadingSpaces

def Flush (text : List Char) : Prop :=
  text.head? ≠ some ' '

/-- One line that does not start with a blank. -/
def Inline (text : List Char) : Prop :=
  '\n' ∉ text ∧ Flush text

instance (text : List Char) : Decidable (Flush text) :=
  inferInstanceAs (Decidable (_ ≠ _))

instance (text : List Char) : Decidable (Inline text) :=
  inferInstanceAs (Decidable (_ ∧ _))

theorem flush_nil : Flush [] := by
  decide

theorem flush_cons {first : Char} {rest : List Char} (h : first ≠ ' ') : Flush (first :: rest) :=
  fun hhead => h (Option.some.inj hhead)

private theorem flush_append {first second : List Char} (hfirst : Flush first)
    (hsecond : Flush second) :
    Flush (first ++ second) := by
  cases first with
  | nil => exact hsecond
  | cons c rest => exact hfirst

theorem inline_append {first second : List Char} (hfirst : Inline first) (hsecond : Inline second) :
    Inline (first ++ second) := by
  refine ⟨?_, flush_append hfirst.2 hsecond.2⟩
  rw [List.mem_append]
  exact not_or.mpr ⟨hfirst.1, hsecond.1⟩

/-- A text with neither blanks nor line breaks. -/
def Solid (text : List Char) : Prop :=
  ∀ c ∈ text, c ≠ ' ' ∧ c ≠ '\n'

instance (text : List Char) : Decidable (Solid text) :=
  List.decidableBAll (fun c => c ≠ ' ' ∧ c ≠ '\n') text

theorem solid_append {first second : List Char} :
    Solid (first ++ second) ↔ Solid first ∧ Solid second :=
  List.forall_mem_append

theorem solid_cons {first : Char} {rest : List Char} :
    Solid (first :: rest) ↔ (first ≠ ' ' ∧ first ≠ '\n') ∧ Solid rest :=
  List.forall_mem_cons

theorem Solid.subset {text part : List Char} (h : Solid text) (hpart : part ⊆ text) : Solid part :=
  fun c hc => h c (hpart hc)

theorem Solid.inline {text : List Char} (h : Solid text) : Inline text :=
  ⟨fun hmem => (h _ hmem).2 rfl, fun hhead => (h _ (List.mem_of_mem_head? hhead)).1 rfl⟩

private theorem leadingSpaces_of_flush {line : List Char} (h : Flush line) :
    leadingSpaces line = 0 := by
  cases line with
  | nil => rfl
  | cons first rest =>
      have hne : first ≠ ' ' := fun heq => h (congrArg some heq)
      simp [leadingSpaces, hne]

private theorem margins_ne_nil (text : List Char) : margins text ≠ [] := by
  simpa [margins] using splitOn_ne_nil '\n' text

private theorem margins_of_inline {text : List Char} (h : Inline text) : margins text = [0] := by
  rw [margins, splitOn_of_not_mem h.1, List.map_singleton, leadingSpaces_of_flush h.2]

theorem margins_newline (before after : List Char) :
    margins (before ++ '\n' :: after) = margins before ++ margins after := by
  rw [margins, splitOn_append, List.map_append]
  rfl

private theorem margins_cons_space (rest : List Char) :
    margins (' ' :: rest) = ((margins rest).head (margins_ne_nil rest) + 1) ::
      (margins rest).tail := by
  obtain ⟨line, lines, hlines⟩ := List.exists_cons_of_ne_nil (splitOn_ne_nil '\n' rest)
  simp [margins, splitOn, hlines, leadingSpaces]

private theorem margins_cons_of_ne {first : Char} {rest : List Char} (hspace : first ≠ ' ')
    (hnewline : first ≠ '\n') : margins (first :: rest) = 0 :: (margins rest).tail := by
  obtain ⟨line, lines, hlines⟩ := List.exists_cons_of_ne_nil (splitOn_ne_nil '\n' rest)
  simp [margins, splitOn, hlines, leadingSpaces, hspace, hnewline]

private theorem margins_of_flush {text : List Char} (h : Flush text) :
    margins text = 0 :: (margins text).tail := by
  cases text with
  | nil => rfl
  | cons first rest =>
      have hspace : first ≠ ' ' := fun heq => h (congrArg some heq)
      by_cases hnewline : first = '\n'
      · subst hnewline
        rfl
      · rw [margins_cons_of_ne hspace hnewline]
        rfl

/-- A text that does not start with a blank goes on in the last line without moving its margin. -/
theorem margins_append {after : List Char} (h : Flush after) (before : List Char) :
    margins (before ++ after) = margins before ++ (margins after).tail := by
  induction before with
  | nil =>
      rw [List.nil_append]
      exact margins_of_flush h
  | cons first rest ih =>
      obtain ⟨margin, others, hmargins⟩ := List.exists_cons_of_ne_nil (margins_ne_nil rest)
      rw [hmargins] at ih
      rw [List.cons_append]
      by_cases hnewline : first = '\n'
      · subst hnewline
        rw [← List.nil_append ('\n' :: (rest ++ after)), ← List.nil_append ('\n' :: rest),
          margins_newline, margins_newline, ih, hmargins]
        rfl
      · by_cases hspace : first = ' '
        · subst hspace
          simp [margins_cons_space, ih, hmargins]
        · simp [margins_cons_of_ne hspace hnewline, ih, hmargins]

/-- Texts with the same margins, both of which can stand behind others in a line. -/
structure Aligned (first second : List Char) : Prop where
  margins : margins first = margins second
  left : Flush first
  right : Flush second

namespace Aligned

variable {first first' second second' : List Char}

theorem refl {text : List Char} (h : Flush text) : Aligned text text :=
  ⟨rfl, h, h⟩

theorem of_inline (h : Inline first) (h' : Inline first') : Aligned first first' :=
  ⟨by rw [margins_of_inline h, margins_of_inline h'], h.2, h'.2⟩

theorem margins_append (hmargins : Text.margins first = Text.margins first')
    (h : Aligned second second') :
    Text.margins (first ++ second) = Text.margins (first' ++ second') := by
  rw [Text.margins_append h.left, Text.margins_append h.right, hmargins, h.margins]

theorem append (h : Aligned first first') (hsecond : Aligned second second') :
    Aligned (first ++ second) (first' ++ second') :=
  ⟨margins_append h.margins hsecond, flush_append h.left hsecond.left,
    flush_append h.right hsecond.right⟩

theorem newline (h : Text.margins first = Text.margins first') :
    Aligned ('\n' :: first) ('\n' :: first') := by
  refine ⟨?_, flush_cons (by decide), flush_cons (by decide)⟩
  have hline : ∀ text, Text.margins ('\n' :: text) = 0 :: Text.margins text := fun text =>
    margins_newline [] text
  rw [hline, hline, h]

end Aligned

end SchemaCodec.Text
