import SchemaCodec.Conversion.Keyword
import SchemaCodec.Proofs.Conversion.Outcome

namespace SchemaCodec.Conversion

/-! What conversions put on record, event by event. -/

/-- The conversion succeeds with a value, and just these events are on record. -/
structure Leaves (conversion : Conversion α) (events : List Event) (value : α) : Prop where
  result : conversion.result = .ok value
  events : conversion.events = events

theorem Leaves.gives {conversion : Conversion α} {events : List Event} {value : α}
    {allowed : Event → Prop} (h : conversion.Leaves events value)
    (hallowed : ∀ event ∈ events, allowed event) : conversion.Gives allowed value :=
  ⟨h.result, h.events ▸ hallowed⟩

theorem leaves_events {conversion : Conversion α} {value : α}
    (hresult : conversion.result = .ok value) : conversion.Leaves conversion.events value :=
  ⟨hresult, rfl⟩

section

variable {events : List Event}

@[simp] theorem leaves_pure {value other : α} :
    (Conversion.pure value).Leaves events other ↔ events = [] ∧ value = other := by
  constructor
  · intro h
    exact ⟨h.events.symm, Except.ok.inj h.result⟩
  · rintro ⟨rfl, rfl⟩
    exact ⟨rfl, rfl⟩

@[simp] theorem leaves_return {value other : α} :
    (Pure.pure value : Conversion α).Leaves events other ↔ events = [] ∧ value = other :=
  leaves_pure

@[simp] theorem leaves_bind {first : Conversion α} {next : α → Conversion β} {value : β} :
    (first >>= next).Leaves events value ↔
      ∃ before middle after, first.Leaves before middle ∧ (next middle).Leaves after value ∧
        events = before ++ after := by
  change (Conversion.bind first next).Leaves events value ↔ _
  unfold Conversion.bind
  constructor
  · intro h
    cases hfirst : first.result with
    | error fault =>
      rw [hfirst] at h
      exact absurd h.result (by simp)
    | ok middle =>
      rw [hfirst] at h
      exact ⟨_, middle, _, leaves_events hfirst, leaves_events h.result, h.events.symm⟩
  · rintro ⟨before, middle, after, hfirst, hnext, rfl⟩
    rw [hfirst.result, hfirst.events]
    refine ⟨hnext.result, ?_⟩
    exact congrArg (before ++ ·) hnext.events

@[simp] theorem leaves_stop {fault : Fault} {value : α} :
    (stop fault : Conversion α).Leaves events value ↔ False :=
  ⟨fun h => by simpa [stop] using h.result, False.elim⟩

@[simp] theorem leaves_fail {location : Location} {problem : Fault.Problem} {value : α} :
    (fail location problem : Conversion α).Leaves events value ↔ False :=
  leaves_stop

@[simp] theorem leaves_record {event : Event} {value : Unit} :
    (record event).Leaves events value ↔ events = [event] := by
  constructor
  · intro h
    exact h.events.symm
  · rintro rfl
    exact ⟨rfl, rfl⟩

@[simp] theorem leaves_require {requirement : Requirement} {value : Unit} :
    (require requirement).Leaves events value ↔ events = [.required requirement] :=
  leaves_record

@[simp] theorem leaves_report {report : Report} {value : Unit} :
    (Conversion.report report).Leaves events value ↔ events = [.reported report] :=
  leaves_record

@[simp] theorem leaves_warn {message : String} {value : Unit} :
    (warn message).Leaves events value ↔ events = [.reported (.warning message)] :=
  leaves_record

@[simp] theorem leaves_info {message : String} {value : Unit} :
    (info message).Leaves events value ↔ events = [.reported (.info message)] :=
  leaves_record

@[simp] theorem leaves_ofExcept {outcome : Except Fault α} {value : α} :
    (ofExcept outcome).Leaves events value ↔ events = [] ∧ outcome = .ok value := by
  cases outcome with
  | ok found => simp [ofExcept]
  | error fault => simp [ofExcept]

end

/-! Lists that are converted element by element. -/

section

variable {convert : α → Conversion β} {items : List α} {values : List β} {events : List Event}

/-- An event is on record because of one of the elements. -/
theorem exists_of_mem_each (h : (each convert items).Leaves events values) {event : Event}
    (hevent : event ∈ events) :
    ∃ item ∈ items, ∃ part value, (convert item).Leaves part value ∧ event ∈ part := by
  induction items generalizing events values with
  | nil =>
    obtain ⟨rfl, -⟩ := leaves_pure.1 h
    cases hevent
  | cons item rest ih =>
    simp only [each, leaves_bind, leaves_return] at h
    obtain ⟨before, first, after, hfirst, ⟨middle, others, last, hothers, ⟨rfl, -⟩, rfl⟩, rfl⟩ := h
    rw [List.append_nil] at hevent
    rcases List.mem_append.1 hevent with hevent | hevent
    · exact ⟨item, List.mem_cons_self, before, first, hfirst, hevent⟩
    · obtain ⟨other, hother, hrest⟩ := ih hothers hevent
      exact ⟨other, .tail _ hother, hrest⟩

/-- What an element puts on record stays there. -/
theorem exists_leaves_of_mem (h : (each convert items).Leaves events values) {item : α}
    (hitem : item ∈ items) :
    ∃ part value, (convert item).Leaves part value ∧ part ⊆ events := by
  induction items generalizing events values with
  | nil => cases hitem
  | cons first rest ih =>
    simp only [each, leaves_bind, leaves_return] at h
    obtain ⟨before, value, after, hfirst, ⟨middle, others, last, hothers, ⟨rfl, -⟩, rfl⟩, rfl⟩ := h
    rw [List.append_nil]
    rcases List.mem_cons.1 hitem with rfl | hitem
    · exact ⟨before, value, hfirst, List.subset_append_left before middle⟩
    · obtain ⟨part, value, hpart, hsub⟩ := ih hothers hitem
      exact ⟨part, value, hpart, List.Subset.trans hsub (List.subset_append_right before middle)⟩

end

/-! Reports alone -/

def Demandless (events : List Event) : Prop :=
  ∀ requirement, Event.required requirement ∉ events

theorem demandless_nil : Demandless [] :=
  fun _ => List.not_mem_nil

theorem demandless_reported (report : Report) : Demandless [.reported report] := by
  intro requirement hmem
  cases List.mem_singleton.1 hmem

theorem Demandless.append {before after : List Event} (hbefore : Demandless before)
    (hafter : Demandless after) : Demandless (before ++ after) := by
  intro requirement hmem
  rcases List.mem_append.1 hmem with hmem | hmem
  · exact hbefore requirement hmem
  · exact hafter requirement hmem

/-- A report that is made on a condition. -/
theorem exists_of_reportIf {condition : Prop} [Decidable condition] {note : Report}
    {rest : Conversion α} {events : List Event} {value : α}
    (h : (if condition then do report note; rest else rest).Leaves events value) :
    ∃ before after, Demandless before ∧ rest.Leaves after value ∧ events = before ++ after := by
  split at h
  · simp only [leaves_bind, leaves_report] at h
    obtain ⟨before, -, after, rfl, hrest, rfl⟩ := h
    exact ⟨_, after, demandless_reported _, hrest, rfl⟩
  · exact ⟨[], events, demandless_nil, h, rfl⟩

theorem demandless_warnAll {messages : List String} {events : List Event} {value : Unit}
    (h : (warnAll messages).Leaves events value) : Demandless events := by
  induction messages generalizing events with
  | nil =>
    obtain ⟨rfl, -⟩ := leaves_pure.1 h
    exact demandless_nil
  | cons message rest ih =>
    simp only [warnAll, leaves_bind, leaves_warn] at h
    obtain ⟨before, -, after, rfl, hrest, rfl⟩ := h
    exact (demandless_reported _).append (ih hrest)

theorem demandless_reportKeywords {isTop : Bool} {schema : Document} {events : List Event}
    {value : Unit} (h : (reportKeywords isTop schema).Leaves events value) :
    Demandless events := by
  unfold reportKeywords at h
  split at h
  · split at h
    · simp only [leaves_bind, leaves_info] at h
      obtain ⟨before, -, after, rfl, hrest, rfl⟩ := h
      exact (demandless_reported _).append (demandless_warnAll hrest)
    · exact demandless_warnAll h
  · simp only [leaves_bind, leaves_pure] at h
    obtain ⟨before, -, after, ⟨rfl, -⟩, hrest, rfl⟩ := h
    exact demandless_warnAll hrest

end SchemaCodec.Conversion
