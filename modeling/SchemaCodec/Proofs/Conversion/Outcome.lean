import Mathlib.Data.List.Forall2
import SchemaCodec.Conversion.Basic

namespace SchemaCodec.Conversion

/-! What conversions give. The events on record are limited to some that are allowed, so that one
rule for each way to build a conversion speaks of success and of silence alike. -/

/-- The conversion succeeds with a value, and only allowed events are on record. -/
structure Gives (allowed : Event → Prop) (conversion : Conversion α) (value : α) : Prop where
  result : conversion.result = .ok value
  events : ∀ event ∈ conversion.events, allowed event

def anything : Event → Prop :=
  fun _ => True

def calm : Event → Prop
  | .reported report => report.severity = .info
  | _ => True

instance : DecidablePred calm
  | .reported report => inferInstanceAs (Decidable (report.severity = .info))
  | .required _ => .isTrue trivial
  | .defined _ _ => .isTrue trivial

theorem gives_anything_iff {conversion : Conversion α} {value : α} :
    conversion.Gives anything value ↔ conversion.result = .ok value :=
  ⟨Gives.result, fun h => ⟨h, fun _ _ => trivial⟩⟩

section

variable {allowed : Event → Prop}

@[simp] theorem gives_pure {value other : α} :
    (Conversion.pure value).Gives allowed other ↔ value = other := by
  constructor
  · intro h
    exact Except.ok.inj h.result
  · intro h
    subst h
    exact ⟨rfl, fun event hevent => by simp [Conversion.pure] at hevent⟩

@[simp] theorem gives_return {value other : α} :
    (Pure.pure value : Conversion α).Gives allowed other ↔ value = other :=
  gives_pure

@[simp] theorem gives_bind {first : Conversion α} {next : α → Conversion β} {value : β} :
    (first >>= next).Gives allowed value ↔
      ∃ middle, first.Gives allowed middle ∧ (next middle).Gives allowed value := by
  change (Conversion.bind first next).Gives allowed value ↔ _
  unfold Conversion.bind
  constructor
  · intro h
    cases hfirst : first.result with
    | error fault =>
        rw [hfirst] at h
        exact absurd h.result (by simp)
    | ok middle =>
        rw [hfirst] at h
        refine ⟨middle, ⟨hfirst, ?_⟩, ⟨h.result, ?_⟩⟩
        · exact fun event hevent => h.events event (List.mem_append_left _ hevent)
        · exact fun event hevent => h.events event (List.mem_append_right _ hevent)
  · intro h
    obtain ⟨middle, hfirst, hnext⟩ := h
    rw [hfirst.result]
    refine ⟨hnext.result, ?_⟩
    intro event hevent
    rcases List.mem_append.mp hevent with hleft | hright
    · exact hfirst.events event hleft
    · exact hnext.events event hright

@[simp] theorem gives_stop {fault : Fault} {value : α} :
    (stop fault : Conversion α).Gives allowed value ↔ False :=
  ⟨fun h => by simpa [stop] using h.result, False.elim⟩

@[simp] theorem gives_fail {location : Location} {problem : Fault.Problem} {value : α} :
    (fail location problem : Conversion α).Gives allowed value ↔ False :=
  gives_stop

@[simp] theorem gives_record {event : Event} {value : Unit} :
    (record event).Gives allowed value ↔ allowed event := by
  constructor
  · intro h
    exact h.events event (by simp [record])
  · intro h
    refine ⟨rfl, fun other hother => ?_⟩
    rw [List.mem_singleton.mp hother]
    exact h

@[simp] theorem gives_require {requirement : Requirement} {value : Unit} :
    (require requirement).Gives allowed value ↔ allowed (.required requirement) :=
  gives_record

@[simp] theorem gives_report {report : Report} {value : Unit} :
    (Conversion.report report).Gives allowed value ↔ allowed (.reported report) :=
  gives_record

@[simp] theorem gives_warn {message : String} {value : Unit} :
    (warn message).Gives allowed value ↔ allowed (.reported (.warning message)) :=
  gives_record

@[simp] theorem gives_info {message : String} {value : Unit} :
    (info message).Gives allowed value ↔ allowed (.reported (.info message)) :=
  gives_record

@[simp] theorem gives_warnAll {messages : List String} {value : Unit} :
    (warnAll messages).Gives allowed value ↔
      ∀ message ∈ messages, allowed (.reported (.warning message)) := by
  induction messages with
  | nil => simp [warnAll]
  | cons message rest ih => simp [warnAll, ih]

theorem gives_each {convert : α → Conversion β} {items : List α} {values : List β} :
    (each convert items).Gives allowed values ↔
      List.Forall₂ (fun item value => (convert item).Gives allowed value) items values := by
  induction items generalizing values with
  | nil =>
      rw [each, gives_pure, List.forall₂_nil_left_iff, eq_comm]
  | cons item rest ih =>
      rw [each]
      simp only [gives_bind, gives_return]
      constructor
      · intro h
        obtain ⟨first, hfirst, others, hothers, rfl⟩ := h
        exact .cons hfirst (ih.mp hothers)
      · intro h
        cases h with
        | cons hfirst hothers =>
            exact ⟨_, hfirst, _, ih.mpr hothers, rfl⟩

@[simp] theorem gives_ofExcept {outcome : Except Fault α} {value : α} :
    (ofExcept outcome).Gives allowed value ↔ outcome = .ok value := by
  cases outcome with
  | ok found => simp [ofExcept]
  | error fault => simp [ofExcept]

theorem gives_of_reportIf {condition : Prop} [Decidable condition] {note : Report}
    {rest : Conversion α} {value : α}
    (h : (if condition then do report note; rest else rest).Gives allowed value) :
    rest.Gives allowed value := by
  split at h
  · obtain ⟨-, -, hrest⟩ := gives_bind.mp h
    exact hrest
  · exact h

end

@[simp] theorem anything_apply {event : Event} : anything event :=
  trivial

@[simp] theorem calm_required {requirement : Requirement} : calm (.required requirement) :=
  trivial

@[simp] theorem calm_info {message : String} : calm (.reported (.info message)) :=
  rfl

@[simp] theorem not_calm_warning {message : String} : ¬ calm (.reported (.warning message)) := by
  intro h
  cases h

@[simp] theorem not_calm_error {message : String} {cause : Option String} :
    ¬ calm (.reported (.error message cause)) := by
  intro h
  cases h

theorem result_bind_eq_error_iff {first : Conversion α} {next : α → Conversion β} {fault : Fault} :
    (first >>= next).result = .error fault ↔
      first.result = .error fault ∨
        ∃ value, first.result = .ok value ∧ (next value).result = .error fault := by
  change (Conversion.bind first next).result = _ ↔ _
  unfold Conversion.bind
  cases first.result with
  | error cause => simp
  | ok value => simp

/-! Lists that are converted element by element. -/

/-- What can be done for every element can be done for the whole list. -/
theorem exists_forall₂ {related : α → β → Prop} {items : List α}
    (h : ∀ item ∈ items, ∃ value, related item value) :
    ∃ values, List.Forall₂ related items values := by
  induction items with
  | nil => exact ⟨[], .nil⟩
  | cons item rest ih =>
      obtain ⟨first, hfirst⟩ := h item (List.mem_cons_self ..)
      obtain ⟨others, hothers⟩ := ih fun other hother => h other (List.mem_cons_of_mem _ hother)
      exact ⟨first :: others, .cons hfirst hothers⟩

theorem exists_right_of_forall₂ {related : α → β → Prop} {items : List α} {values : List β}
    (h : List.Forall₂ related items values) {item : α} (hitem : item ∈ items) :
    ∃ value ∈ values, related item value := by
  induction h with
  | nil => simp at hitem
  | cons hfirst _ ih =>
      rcases List.mem_cons.mp hitem with rfl | hrest
      · exact ⟨_, List.mem_cons_self .., hfirst⟩
      · obtain ⟨value, hvalue, hrelated⟩ := ih hrest
        exact ⟨value, List.mem_cons_of_mem _ hvalue, hrelated⟩

theorem exists_left_of_forall₂ {related : α → β → Prop} {items : List α} {values : List β}
    (h : List.Forall₂ related items values) {value : β} (hvalue : value ∈ values) :
    ∃ item ∈ items, related item value :=
  exists_right_of_forall₂ (List.Forall₂.flip h) hvalue

theorem forall₂_of_mapM {convert : α → Except ε β} {items : List α} {values : List β}
    (h : items.mapM convert = .ok values) :
    List.Forall₂ (fun item value => convert item = .ok value) items values := by
  induction items generalizing values with
  | nil =>
      cases h
      exact .nil
  | cons item rest ih =>
      rw [List.mapM_cons] at h
      cases hitem : convert item with
      | error fault =>
          rw [hitem] at h
          cases h
      | ok value =>
          cases hrest : rest.mapM convert with
          | error fault =>
              rw [hitem, hrest] at h
              cases h
          | ok others =>
              rw [hitem, hrest] at h
              cases h
              exact .cons hitem (ih hrest)

end SchemaCodec.Conversion
