import Mathlib.Data.List.Infix
import SchemaCodec.Text.Cut

namespace SchemaCodec.Text

/-! The parts between separators -/

variable {separator : Char}

private theorem splitOn_nil : splitOn separator [] = [[]] :=
  rfl

private theorem splitOn_cons_self (separator : Char) (rest : List Char) :
    splitOn separator (separator :: rest) = [] :: splitOn separator rest :=
  if_pos rfl

private theorem splitOn_cons_of_ne {first : Char} {rest part : List Char}
    {parts : List (List Char)} (hne : first ≠ separator)
    (hrest : splitOn separator rest = part :: parts) :
    splitOn separator (first :: rest) = (first :: part) :: parts := by
  rw [splitOn, if_neg hne, hrest]

theorem splitOn_ne_nil (separator : Char) (text : List Char) : splitOn separator text ≠ [] := by
  induction text with
  | nil => exact List.cons_ne_nil _ _
  | cons first rest ih =>
      by_cases heq : first = separator
      · rw [heq, splitOn_cons_self]
        exact List.cons_ne_nil _ _
      · obtain ⟨part, parts, hparts⟩ := List.exists_cons_of_ne_nil ih
        rw [splitOn_cons_of_ne heq hparts]
        exact List.cons_ne_nil _ _

theorem splitOn_of_not_mem {text : List Char} (h : separator ∉ text) :
    splitOn separator text = [text] := by
  induction text with
  | nil => rfl
  | cons first rest ih =>
      have hne : first ≠ separator := (List.ne_of_not_mem_cons h).symm
      have hrest : separator ∉ rest := List.not_mem_of_not_mem_cons h
      exact splitOn_cons_of_ne hne (ih hrest)

theorem splitOn_append (before after : List Char) :
    splitOn separator (before ++ separator :: after) =
      splitOn separator before ++ splitOn separator after := by
  induction before with
  | nil => exact splitOn_cons_self separator after
  | cons first rest ih =>
      rw [List.cons_append]
      by_cases heq : first = separator
      · rw [heq, splitOn_cons_self, splitOn_cons_self, ih, List.cons_append]
      · obtain ⟨part, parts, hparts⟩ := List.exists_cons_of_ne_nil (splitOn_ne_nil separator rest)
        have happend : splitOn separator (rest ++ separator :: after) =
            part :: (parts ++ splitOn separator after) := by
          rw [ih, hparts, List.cons_append]
        rw [splitOn_cons_of_ne heq happend, splitOn_cons_of_ne heq hparts, List.cons_append]

theorem splitOn_append_cons {before after : List Char} (h : separator ∉ before) :
    splitOn separator (before ++ separator :: after) = before :: splitOn separator after := by
  rw [splitOn_append, splitOn_of_not_mem h, List.singleton_append]

theorem splitOn_prepend {before after part : List Char} {parts : List (List Char)}
    (h : separator ∉ before) (hafter : splitOn separator after = part :: parts) :
    splitOn separator (before ++ after) = (before ++ part) :: parts := by
  induction before with
  | nil => exact hafter
  | cons first rest ih =>
      have hne : first ≠ separator := (List.ne_of_not_mem_cons h).symm
      have hrest : separator ∉ rest := List.not_mem_of_not_mem_cons h
      exact splitOn_cons_of_ne hne (ih hrest)

theorem not_mem_of_mem_splitOn {text part : List Char} (h : part ∈ splitOn separator text) :
    separator ∉ part := by
  induction text generalizing part with
  | nil =>
      rw [List.mem_singleton.mp h]
      exact List.not_mem_nil
  | cons first rest ih =>
      by_cases heq : first = separator
      · rw [heq, splitOn_cons_self] at h
        rcases List.mem_cons.mp h with rfl | hmem
        · exact List.not_mem_nil
        · exact ih hmem
      · obtain ⟨head, tail, hparts⟩ :=
          List.exists_cons_of_ne_nil (splitOn_ne_nil separator rest)
        rw [hparts] at ih
        rw [splitOn_cons_of_ne heq hparts] at h
        rcases List.mem_cons.mp h with rfl | hmem
        · exact List.not_mem_cons_of_ne_of_not_mem (Ne.symm heq) (ih (List.mem_cons_self ..))
        · exact ih (List.mem_cons_of_mem _ hmem)

/-- The separator is missing, or the parts are the text before its first occurrence and the parts
of what follows it. -/
theorem splitOn_cases (separator : Char) (text : List Char) :
    (separator ∉ text ∧ splitOn separator text = [text]) ∨
    ∃ before after, text = before ++ separator :: after ∧ separator ∉ before ∧
      splitOn separator text = before :: splitOn separator after := by
  by_cases hmem : separator ∈ text
  · obtain ⟨before, after, rfl, hbefore⟩ := List.eq_append_cons_of_mem hmem
    exact .inr ⟨before, after, rfl, hbefore, splitOn_append_cons hbefore⟩
  · exact .inl ⟨hmem, splitOn_of_not_mem hmem⟩

theorem splitOn_eq_singleton {text part : List Char} (h : splitOn separator text = [part]) :
    separator ∉ text ∧ text = part := by
  rcases splitOn_cases separator text with ⟨hmem, hparts⟩ | ⟨before, after, -, -, hparts⟩
  · exact ⟨hmem, List.singleton_inj.mp (hparts.symm.trans h)⟩
  · exact absurd (List.cons.inj (hparts.symm.trans h)).2 (splitOn_ne_nil separator after)

theorem splitOn_eq_cons_cons {text part next : List Char} {parts : List (List Char)}
    (h : splitOn separator text = part :: next :: parts) :
    ∃ rest, text = part ++ separator :: rest ∧ separator ∉ part ∧
      splitOn separator rest = next :: parts := by
  rcases splitOn_cases separator text with ⟨-, hparts⟩ | ⟨before, after, htext, hbefore, hparts⟩
  · cases hparts.symm.trans h
  · obtain ⟨rfl, hrest⟩ := List.cons.inj (hparts.symm.trans h)
    exact ⟨after, htext, hbefore, hrest⟩

theorem forall_splitOn_eq_nil_iff {text : List Char} :
    (∀ part ∈ splitOn separator text, part = []) ↔ ∀ c ∈ text, c = separator := by
  induction text with
  | nil => simp [splitOn_nil]
  | cons first rest ih =>
      by_cases heq : first = separator
      · rw [heq, splitOn_cons_self]
        simp [ih]
      · obtain ⟨part, parts, hparts⟩ := List.exists_cons_of_ne_nil (splitOn_ne_nil separator rest)
        rw [splitOn_cons_of_ne heq hparts]
        simp [heq]

/-! The first separator -/

private theorem before_prepend {front : List Char} (h : separator ∉ front) (rest : List Char) :
    before separator (front ++ rest) = front ++ before separator rest := by
  refine List.takeWhile_append_of_pos ?_
  intro c hc
  exact decide_eq_true fun heq => h (heq ▸ hc)

theorem before_of_not_mem {text : List Char} (h : separator ∉ text) :
    before separator text = text := by
  simpa [before] using before_prepend h []

theorem before_append {front : List Char} (h : separator ∉ front) (rest : List Char) :
    before separator (front ++ separator :: rest) = front := by
  rw [before_prepend h]
  simp [before]

/-! The last separator -/

private theorem cut?_append {before : List Char} (h : separator ∉ before) (after : List Char) :
    cut? separator (before ++ separator :: after) = some (before, after) := by
  induction before with
  | nil => rw [List.nil_append, cut?, if_pos rfl]
  | cons first rest ih =>
      have hne : first ≠ separator := (List.ne_of_not_mem_cons h).symm
      have hrest : separator ∉ rest := List.not_mem_of_not_mem_cons h
      rw [List.cons_append, cut?, if_neg hne, ih hrest]
      rfl

theorem cut?_of_not_mem {text : List Char} (h : separator ∉ text) : cut? separator text = none := by
  induction text with
  | nil => rfl
  | cons first rest ih =>
      have hne : first ≠ separator := (List.ne_of_not_mem_cons h).symm
      have hrest : separator ∉ rest := List.not_mem_of_not_mem_cons h
      rw [cut?, if_neg hne, ih hrest]
      rfl

theorem cutLast?_append {after : List Char} (h : separator ∉ after) (before : List Char) :
    cutLast? separator (before ++ separator :: after) = some (before, after) := by
  have hreverse : (before ++ separator :: after).reverse =
      after.reverse ++ separator :: before.reverse := by simp
  rw [cutLast?, hreverse, cut?_append (by simpa using h)]
  simp

theorem cutLast?_of_not_mem {text : List Char} (h : separator ∉ text) :
    cutLast? separator text = none := by
  rw [cutLast?, cut?_of_not_mem (by simpa using h)]
  rfl

theorem afterLast_append {after : List Char} (h : separator ∉ after) (before : List Char) :
    afterLast separator (before ++ separator :: after) = after := by
  have hreverse : (before ++ separator :: after).reverse =
      after.reverse ++ separator :: before.reverse := by simp
  have hall : ∀ c ∈ after.reverse, decide (c ≠ separator) = true := by
    intro c hc
    exact decide_eq_true fun heq => h (heq ▸ List.mem_reverse.mp hc)
  rw [afterLast, hreverse, List.takeWhile_append_of_pos hall]
  simp

theorem exists_last_of_mem {text : List Char} (h : separator ∈ text) :
    ∃ before after, text = before ++ separator :: after ∧ separator ∉ after := by
  obtain ⟨after, before, hsplit, hnot⟩ := List.eq_append_cons_of_mem (List.mem_reverse.mpr h)
  refine ⟨before.reverse, after.reverse, ?_, by simpa using hnot⟩
  rw [← List.reverse_reverse text, hsplit]
  simp

/-! The first occurrence of a text -/

theorem isPrefixOf?_append (front rest : List Char) :
    front.isPrefixOf? (front ++ rest) = some rest := by
  induction front with
  | nil => cases rest <;> rfl
  | cons first others ih =>
      change (if first == first then others.isPrefixOf? (others ++ rest) else none) = some rest
      rw [if_pos (beq_self_eq_true first), ih]

theorem cutAt?_isSome (before mark after : List Char) :
    (cutAt? mark (before ++ (mark ++ after))).isSome = true := by
  induction before with
  | nil =>
      rw [List.nil_append]
      cases htext : mark ++ after with
      | nil => rw [cutAt?, if_pos (List.append_eq_nil_iff.mp htext).1]; rfl
      | cons first rest => rw [cutAt?, ← htext, isPrefixOf?_append]; rfl
  | cons first rest ih =>
      rw [List.cons_append, cutAt?]
      split
      · rfl
      · rw [Option.isSome_map, ih]

theorem cutAt?_eq_some {mark text before after : List Char}
    (h : cutAt? mark text = some (before, after)) :
    text = before ++ (mark ++ after) ∧
      ∀ front rest, text = front ++ (mark ++ rest) → before.length ≤ front.length := by
  induction text generalizing before with
  | nil =>
      rw [cutAt?] at h
      split at h
      · next hmark =>
          cases h
          exact ⟨by rw [hmark]; rfl, fun _ _ _ => Nat.zero_le _⟩
      · cases h
  | cons first others ih =>
      rw [cutAt?] at h
      split at h
      · next hmark =>
          cases h
          exact ⟨(List.append_eq_of_isPrefixOf?_eq_some hmark).symm, fun _ _ _ => Nat.zero_le _⟩
      · next hmark =>
          obtain ⟨⟨found, behind⟩, hfound, heq⟩ := Option.map_eq_some_iff.mp h
          cases heq
          obtain ⟨htext, hfirst⟩ := ih hfound
          refine ⟨congrArg (first :: ·) htext, fun front rest hfront => ?_⟩
          cases front with
          | nil =>
              rw [hfront, List.nil_append, isPrefixOf?_append] at hmark
              cases hmark
          | cons _ front => exact Nat.succ_le_succ (hfirst front rest (List.cons.inj hfront).2)

end SchemaCodec.Text
