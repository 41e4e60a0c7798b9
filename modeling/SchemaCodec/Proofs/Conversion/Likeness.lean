import Mathlib.Data.List.Forall2
import SchemaCodec.Conversion.Context

namespace SchemaCodec

/-! Conversions that cannot be told apart but by the order of their reports. -/

/-- The faults break the same rule at the same place. -/
def Fault.Alike : Fault → Fault → Prop
  | .located fault, .located other =>
    fault.location = other.location ∧ fault.problem.rule = other.problem.rule
  | fault, other => fault = other

theorem Fault.Alike.refl (fault : Fault) : fault.Alike fault := by
  cases fault with
  | located => exact ⟨rfl, rfl⟩
  | _ => rfl

namespace Conversion

inductive AlikeResult (related : α → β → Prop) : Except Fault α → Except Fault β → Prop where
  | ok {value : α} {other : β} (h : related value other) :
      AlikeResult related (.ok value) (.ok other)
  | error {fault other : Fault} (h : fault.Alike other) :
      AlikeResult related (.error fault) (.error other)

/-- Both conversions fail alike or give related values, with the same requirements in the same order
and the same reports in any order. -/
structure Alike (related : α → β → Prop) (first : Conversion α) (second : Conversion β) :
    Prop where
  events : first.events.Perm second.events
  requirements :
    first.events.filterMap Event.requirement? = second.events.filterMap Event.requirement?
  result : AlikeResult related first.result second.result

section

variable {related : α → β → Prop} {first : Conversion α} {second : Conversion β}

theorem Alike.reports (h : Alike related first second) : first.reports.Perm second.reports :=
  h.events.filterMap Event.report?

theorem Alike.imports (h : Alike related first second) (context : Context) :
    (context.absorb first.events).imports = (context.absorb second.events).imports := by
  simp only [Context.absorb, h.requirements]

theorem Alike.helpers (h : Alike related first second) (context : Context) :
    (context.absorb first.events).helpers = (context.absorb second.events).helpers := by
  simp only [Context.absorb, h.requirements]

end

private theorem Alike.of_eq {first second : Conversion α} (h : first = second) :
    Alike Eq first second := by
  subst h
  refine ⟨.refl _, rfl, ?_⟩
  cases first.result with
  | ok value => exact .ok rfl
  | error fault => exact .error (.refl fault)

theorem Alike.refl (conversion : Conversion α) : Alike Eq conversion conversion :=
  .of_eq rfl

theorem alike_return {related : α → β → Prop} {value : α} {other : β} (h : related value other) :
    Alike related (Pure.pure value : Conversion α) (Pure.pure other) :=
  ⟨.nil, rfl, .ok h⟩

theorem alike_fail {related : α → β → Prop} {location : Location}
    {problem other : Fault.Problem} (h : problem.rule = other.rule) :
    Alike related (fail location problem) (fail location other) :=
  ⟨.nil, rfl, .error ⟨rfl, h⟩⟩

theorem alike_bind {γ δ : Type} {related : α → β → Prop} {results : γ → δ → Prop}
    {first : Conversion α} {second : Conversion β}
    {next : α → Conversion γ} {other : β → Conversion δ} (h : Alike related first second)
    (hnext : ∀ value found, related value found → Alike results (next value) (other found)) :
    Alike results (first >>= next) (second >>= other) := by
  obtain ⟨events, result⟩ := first
  obtain ⟨events', result'⟩ := second
  obtain ⟨hevents, hrequirements, hresult⟩ := h
  cases hresult with
  | error hfault => exact ⟨hevents, hrequirements, .error hfault⟩
  | ok hvalue =>
      have hrest := hnext _ _ hvalue
      refine ⟨hevents.append hrest.events, ?_, hrest.result⟩
      change List.filterMap _ (events ++ _) = List.filterMap _ (events' ++ _)
      rw [List.filterMap_append, List.filterMap_append, hrest.requirements]
      exact congrArg (· ++ _) hrequirements

/-- Where the values are the same, what follows is compared for one value. -/
theorem alike_bind_same {γ δ : Type} {results : γ → δ → Prop} {first second : Conversion α}
    {next : α → Conversion γ} {other : α → Conversion δ} (h : Alike Eq first second)
    (hnext : ∀ value, Alike results (next value) (other value)) :
    Alike results (first >>= next) (second >>= other) := by
  apply alike_bind h
  rintro value _ rfl
  exact hnext value

private theorem alike_each {γ δ : Type} {results : γ → δ → Prop} {convert : α → Conversion γ}
    {other : β → Conversion δ} {items : List α} {others : List β}
    (h : List.Forall₂ (fun item found => Alike results (convert item) (other found)) items others) :
    Alike (List.Forall₂ results) (each convert items) (each other others) := by
  induction h with
  | nil => exact alike_return .nil
  | cons hitem _ ih =>
      apply alike_bind hitem
      intro value found hvalue
      apply alike_bind ih
      intro values founds hvalues
      exact alike_return (.cons hvalue hvalues)

theorem alike_each_same {convert : α → Conversion γ} {other : β → Conversion γ} {items : List α}
    {others : List β}
    (h : List.Forall₂ (fun item found => Alike Eq (convert item) (other found)) items others) :
    Alike Eq (each convert items) (each other others) := by
  have hvalues := alike_each h
  rwa [List.forall₂_eq_eq_eq] at hvalues

private theorem events_warnAll (messages : List String) :
    (warnAll messages).events = messages.map fun message => .reported (.warning message) := by
  induction messages with
  | nil => rfl
  | cons message rest ih => exact congrArg (Event.reported (.warning message) :: ·) ih

private theorem result_warnAll (messages : List String) : (warnAll messages).result = .ok () := by
  induction messages with
  | nil => rfl
  | cons message rest ih => exact ih

theorem alike_warnAll {messages others : List String} (h : messages.Perm others) :
    Alike Eq (warnAll messages) (warnAll others) := by
  refine ⟨?_, ?_, ?_⟩
  · rw [events_warnAll, events_warnAll]
    exact h.map _
  · rw [events_warnAll, events_warnAll]
    simp [Function.comp_def, Event.requirement?]
  · rw [result_warnAll, result_warnAll]
    exact .ok rfl

end Conversion

end SchemaCodec
