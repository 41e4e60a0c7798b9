namespace SchemaCodec

/-! Computations that may fail: what has happened if a sequence of them succeeds or fails. -/

theorem ok_bind (value : α) (next : α → Except ε β) : (Except.ok value >>= next) = next value := rfl

theorem exists_of_bind_eq_ok {first : Except ε α} {next : α → Except ε β} {value : β}
    (h : first >>= next = .ok value) : ∃ middle, first = .ok middle ∧ next middle = .ok value := by
  cases first with
  | error cause => cases h
  | ok middle => exact ⟨middle, rfl, h⟩

theorem bind_eq_ok_iff {first : Except ε α} {next : α → Except ε β} {value : β} :
    first >>= next = .ok value ↔ ∃ middle, first = .ok middle ∧ next middle = .ok value := by
  constructor
  · exact exists_of_bind_eq_ok
  · rintro ⟨middle, rfl, hnext⟩
    exact hnext

theorem map_eq_ok_iff {outcome : Except ε α} {change : α → β} {value : β} :
    outcome.map change = .ok value ↔ ∃ found, outcome = .ok found ∧ change found = value := by
  cases outcome with
  | error cause =>
      constructor
      · intro h
        cases h
      · rintro ⟨found, h, -⟩
        cases h
  | ok found =>
      constructor
      · intro h
        cases h
        exact ⟨found, rfl, rfl⟩
      · rintro ⟨_, h, rfl⟩
        cases h
        rfl

theorem mapError_eq_ok_iff {outcome : Except ε α} {change : ε → ε'} {value : α} :
    outcome.mapError change = .ok value ↔ outcome = .ok value := by
  cases outcome with
  | error cause =>
      constructor
      · intro h
        cases h
      · intro h
        cases h
  | ok found =>
      constructor
      · intro h
        cases h
        rfl
      · intro h
        cases h
        rfl

theorem error_of_bind {first : Except ε α} {next : α → Except ε β} {cause : ε}
    (h : first >>= next = .error cause) :
    first = .error cause ∨ ∃ middle, first = .ok middle ∧ next middle = .error cause := by
  cases first with
  | error other =>
      cases h
      exact .inl rfl
  | ok middle => exact .inr ⟨middle, rfl, h⟩

theorem error_of_mapM {convert : α → Except ε β} {items : List α} {cause : ε}
    (h : items.mapM convert = .error cause) : ∃ item ∈ items, convert item = .error cause := by
  induction items with
  | nil => cases h
  | cons item rest ih =>
      rw [List.mapM_cons] at h
      rcases error_of_bind h with hitem | ⟨first, -, h⟩
      · exact ⟨item, List.mem_cons_self .., hitem⟩
      · rcases error_of_bind h with hrest | ⟨others, -, h⟩
        · obtain ⟨found, hfound, hcause⟩ := ih hrest
          exact ⟨found, List.mem_cons_of_mem _ hfound, hcause⟩
        · cases h

theorem exists_ok_of_any {outcome : Except ε α} {test : α → Bool}
    (h : outcome.toOption.any test = true) : ∃ value, outcome = .ok value ∧ test value = true := by
  cases outcome with
  | error fault => cases h
  | ok value => exact ⟨value, rfl, h⟩

end SchemaCodec
