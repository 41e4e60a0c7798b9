import SchemaCodec.Proofs.Except
import SchemaCodec.Proofs.Json.Progress
import Mathlib.Logic.Relation

namespace SchemaCodec.Json

open SchemaCodec
open Document

/-! Reading ends. The reader gives up when a bound on its nested calls is used up; here its calls
are followed without a bound, and the bound that a text is read with turns out to be enough. -/

namespace Call

def text : Call → List UInt8
  | .value _ text => text
  | .members _ _ text => text
  | .items _ _ text => text

/-! The calls that a call makes -/

/-- A call that goes on with an object or array behind one of its parts. `read` says what has been
read of the part. -/
inductive Repeats (read : Call → Outcome) : Call → Call → Prop where
  | member {path : Pointer} {known : Table Draft} {key : String} {draft : Draft}
      {text inner rest : List UInt8} (hmore : hasMore text = true)
      (hkey : readKey path known text = .ok (key, inner))
      (hvalue : read (.value (path ++ [key]) inner) = .ok (draft, rest)) :
      Repeats read (.members path known text) (.members path (known.push key draft) rest)
  | item {path : Pointer} {known : List Draft} {draft : Draft} {text rest : List UInt8}
      (hmore : hasMore text = true)
      (hitem : read (.value (path ++ [toString known.length]) text) = .ok (draft, rest)) :
      Repeats read (.items path known text) (.items path (draft :: known) rest)

/-- A call for the inside of an object or array, or for one of its parts. -/
inductive Enters : Call → Call → Prop where
  | object {path : Pointer} {text inner : List UInt8}
      (hscan : scan text = .token .openObject inner) :
      Enters (.value path text) (.members path .empty inner)
  | array {path : Pointer} {text inner : List UInt8}
      (hscan : scan text = .token .openArray inner) :
      Enters (.value path text) (.items path [] inner)
  | member {path : Pointer} {known : Table Draft} {key : String} {text inner : List UInt8}
      (hmore : hasMore text = true)
      (hkey : readKey path known text = .ok (key, inner)) :
      Enters (.members path known text) (.value (path ++ [key]) inner)
  | item {path : Pointer} {known : List Draft} {text : List UInt8}
      (hmore : hasMore text = true) :
      Enters (.items path known text) (.value (path ++ [toString known.length]) text)

def Makes (read : Call → Outcome) (call next : Call) : Prop :=
  call.Enters next ∨ call.Repeats read next

private theorem step_congr {read other : Call → Outcome} {call : Call}
    (h : ∀ next, call.Makes read next → read next = other next) :
    call.step read = call.step other := by
  cases call with
  | value path text =>
      rw [step, step]
      cases hscan : scan text with
      | finished => rfl
      | malformed => rfl
      | token token rest =>
          cases token with
          | openObject => exact h _ (.inl (.object hscan))
          | openArray => exact h _ (.inl (.array hscan))
          | _ => rfl
  | members path known text =>
      rw [step, step]
      split
      · next hmore =>
          cases hkey : readKey path known text with
          | error => rfl
          | ok found =>
              have hvalue := h _ (.inl (.member hmore hkey))
              rw [ok_bind, ok_bind]
              dsimp only
              rw [← hvalue]
              cases hread : read (.value (path ++ [found.1]) found.2) with
              | error => rfl
              | ok result => exact h _ (.inr (.member hmore hkey hread))
      · rfl
  | items path known text =>
      rw [step, step]
      split
      · next hmore =>
          rw [← h _ (.inl (.item hmore))]
          cases hread : read (.value (path ++ [toString known.length]) text) with
          | error => rfl
          | ok result => exact h _ (.inr (.item hmore hread))
      · rfl

theorem Enters.suffix {call next : Call} (h : call.Enters next) : next.text <:+ call.text := by
  cases h with
  | object hscan => exact (advances_of_scan hscan).suffix
  | array hscan => exact (advances_of_scan hscan).suffix
  | member hmore hkey => exact (advances_of_readKey hkey).suffix
  | item hmore => exact List.suffix_rfl

/-- What `read` says of the parts that the call enters takes up bytes. -/
def Forwards (read : Call → Outcome) (call : Call) : Prop :=
  ∀ part draft rest, call.Enters part → read part = .ok (draft, rest) → Advances part.text rest

private theorem Repeats.advances {read : Call → Outcome} {call next : Call}
    (h : call.Repeats read next)
    (hread : call.Forwards read) : Advances call.text next.text := by
  cases h with
  | member hmore hkey hvalue =>
      exact (advances_of_readKey hkey).trans (hread _ _ _ (.member hmore hkey) hvalue)
  | item hmore hitem =>
      have hadvances := hread _ _ _ (.item hmore) hitem
      exact hadvances

theorem Makes.suffix {read : Call → Outcome} {call next : Call} (h : call.Makes read next)
    (hread : call.Forwards read) : next.text <:+ call.text := by
  rcases h with henters | hrepeats
  · exact henters.suffix
  · exact (hrepeats.advances hread).suffix

/-- How deep calls may be nested in the call. An array is entered at the bytes where its first
element is, so the unread bytes alone do not go down with every call. -/
def bound : Call → Nat
  | .value _ text => 2 * text.length + 1
  | .members _ _ text => 2 * text.length + 2
  | .items _ _ text => 2 * text.length + 2

private theorem Makes.bound_lt {read : Call → Outcome} {call next : Call} (h : call.Makes read next)
    (hread : call.Forwards read) : next.bound < call.bound := by
  rcases h with henters | hrepeats
  · cases henters with
    | object hscan =>
        have hshorter := (advances_of_scan hscan).shorter
        simp only [bound]
        omega
    | array hscan =>
        have hshorter := (advances_of_scan hscan).shorter
        simp only [bound]
        omega
    | member hmore hkey =>
        have hshorter := (advances_of_readKey hkey).shorter
        simp only [bound]
        omega
    | item hmore => exact Nat.lt_succ_self _
  · have hshorter := (hrepeats.advances hread).shorter
    cases hrepeats with
    | member => simpa [bound, text] using hshorter
    | item => simpa [bound, text] using hshorter

private theorem step_advances {read : Call → Outcome} {call : Call} {draft : Draft}
    {rest : List UInt8}
    (hread : ∀ next draft rest, call.Makes read next → read next = .ok (draft, rest) →
      Advances next.text rest)
    (h : call.step read = .ok (draft, rest)) : Advances call.text rest := by
  cases call with
  | value path text =>
      rw [step] at h
      cases hscan : scan text with
      | finished =>
          rw [hscan] at h
          cases h
      | malformed =>
          rw [hscan] at h
          cases h
      | token token inner =>
          rw [hscan] at h
          have hfirst : Advances text inner := advances_of_scan hscan
          cases token with
          | openObject => exact hfirst.trans (hread _ _ _ (.inl (.object hscan)) h)
          | openArray => exact hfirst.trans (hread _ _ _ (.inl (.array hscan)) h)
          | closeObject => cases h
          | closeArray => cases h
          | scalar value =>
              cases h
              exact hfirst
  | members path known text =>
      rw [step] at h
      split at h
      · next hmore =>
          obtain ⟨⟨key, inner⟩, hkey, h⟩ := exists_of_bind_eq_ok h
          obtain ⟨⟨value, tail⟩, hvalue, h⟩ := exists_of_bind_eq_ok h
          have hmember : Advances inner tail := hread _ _ _ (.inl (.member hmore hkey)) hvalue
          have hothers : Advances tail rest := hread _ _ _ (.inr (.member hmore hkey hvalue)) h
          exact (advances_of_readKey hkey).trans (hmember.trans hothers)
      · exact advances_of_close h
  | items path known text =>
      rw [step] at h
      split at h
      · next hmore =>
          obtain ⟨⟨value, tail⟩, hvalue, h⟩ := exists_of_bind_eq_ok h
          have hitem : Advances text tail := hread _ _ _ (.inl (.item hmore)) hvalue
          exact hitem.trans (hread _ _ _ (.inr (.item hmore hvalue)) h)
      · exact advances_of_close h

private theorem advances_of_run {fuel : Nat} {call : Call} {draft : Draft} {rest : List UInt8}
    (h : call.run fuel = .ok (draft, rest)) : Advances call.text rest := by
  induction fuel generalizing call draft rest with
  | zero => cases call <;> cases h
  | succ fuel ih => exact step_advances (fun next draft rest _ => ih) h

/-! Calls that end -/

/-- A call ends when those that it makes end, and then with what one step makes of their
outcomes. -/
inductive Ends : Call → Outcome → Prop where
  | step {call : Call} (read : Call → Outcome)
      (hnested : ∀ next, call.Makes read next → Ends next (read next)) :
      Ends call (call.step read)

private theorem Ends.advances {call : Call} {outcome : Outcome} (h : call.Ends outcome)
    {draft : Draft}
    {rest : List UInt8} (hok : outcome = .ok (draft, rest)) : Advances call.text rest := by
  induction h generalizing draft rest with
  | step read hnested ih =>
      exact step_advances (fun next draft rest hnext hread => ih next hnext hread) hok

private theorem ends_run {fuel : Nat} {call : Call} (hbound : call.bound ≤ fuel) :
    call.Ends (call.run fuel) := by
  induction fuel generalizing call with
  | zero => cases call <;> simp [bound] at hbound
  | succ fuel ih =>
      refine .step (run fuel) ?_
      intro next hnext
      have hlt := hnext.bound_lt fun part draft rest _ => advances_of_run
      exact ih (by omega)

theorem Ends.run_eq {call : Call} {outcome : Outcome} (h : call.Ends outcome) {fuel : Nat}
    (hbound : call.bound ≤ fuel) : call.run fuel = outcome := by
  induction h generalizing fuel with
  | @step call read hnested ih =>
      cases fuel with
      | zero => cases call <;> simp [bound] at hbound
      | succ fuel =>
          refine (step_congr ?_).symm
          intro next hnext
          have hlt := hnext.bound_lt fun part draft rest hpart =>
            (hnested part (.inl hpart)).advances
          exact (ih next hnext (by omega)).symm

def outcome (call : Call) : Outcome :=
  call.run call.bound

private theorem ends_iff {call : Call} {result : Outcome} :
    call.Ends result ↔ call.outcome = result := by
  constructor
  · intro h
    exact h.run_eq (Nat.le_refl _)
  · rintro rfl
    exact ends_run (Nat.le_refl _)

private theorem run_eq_outcome (call : Call) {fuel : Nat} (hbound : call.bound ≤ fuel) :
    call.run fuel = call.outcome :=
  (ends_iff.mpr rfl).run_eq hbound

private theorem outcome_eq_step (call : Call) : call.outcome = call.step outcome := by
  rw [← call.run_eq_outcome (Nat.le_succ call.bound)]
  refine step_congr ?_
  intro next hnext
  have hlt := hnext.bound_lt fun part draft rest _ => advances_of_run
  exact next.run_eq_outcome (by omega)

private theorem forwards_outcome (call : Call) : call.Forwards outcome :=
  fun _ _ _ _ hpart => advances_of_run hpart

private theorem makes_wellFounded : WellFounded fun next call : Call => call.Makes outcome next :=
  Subrelation.wf (fun h => h.bound_lt (forwards_outcome _)) (measure bound).wf

private theorem shorter_of_transGen {path : Pointer} {text : List UInt8} {next : Call}
    (h : Relation.TransGen (Makes outcome) (.value path text) next) :
    next.text.length < text.length := by
  induction h with
  | single h =>
      rcases h with henters | hrepeats
      · cases henters with
        | object hscan => exact (advances_of_scan hscan).shorter
        | array hscan => exact (advances_of_scan hscan).shorter
      · cases hrepeats
  | tail _ h ih => exact Nat.lt_of_le_of_lt (h.suffix (forwards_outcome _)).length_le ih

end Call

inductive Parses : List UInt8 → Except ReadError Document → Prop where
  | whole {text rest : List UInt8} {draft : Draft}
      (hvalue : (Call.value [] text).Ends (.ok (draft, rest))) (hrest : scan rest = .finished) :
      Parses text (.ok draft.document)
  | trailing {text rest : List UInt8} {draft : Draft}
      (hvalue : (Call.value [] text).Ends (.ok (draft, rest))) (hrest : scan rest ≠ .finished) :
      Parses text (.error .trailingData)
  | failed {text : List UInt8} {cause : ReadError}
      (hvalue : (Call.value [] text).Ends (.error cause)) : Parses text (.error cause)

private theorem parse_of_parses {text : List UInt8} {result : Except ReadError Document}
    (h : Parses text result) : parse text = result := by
  have hrun : Call.run (2 * text.length + 2) (.value [] text) = (Call.value [] text).outcome :=
    (Call.value [] text).run_eq_outcome (Nat.le_succ _)
  rw [parse, read, hrun]
  cases h with
  | whole hvalue hrest =>
      rw [Call.ends_iff.mp hvalue, ok_bind]
      dsimp only
      rw [hrest]
      rfl
  | @trailing rest draft hvalue hrest =>
      rw [Call.ends_iff.mp hvalue, ok_bind]
      dsimp only
      cases hscan : scan rest with
      | finished => exact absurd hscan hrest
      | malformed => rfl
      | token => rfl
  | failed hvalue =>
      rw [Call.ends_iff.mp hvalue]
      rfl

private theorem exists_parses (text : List UInt8) : ∃ result, Parses text result := by
  have hends := Call.ends_iff.mpr (rfl : (Call.value [] text).outcome = _)
  cases houtcome : (Call.value [] text).outcome with
  | error cause => exact ⟨_, .failed (houtcome ▸ hends)⟩
  | ok read =>
      by_cases hrest : scan read.2 = .finished
      · exact ⟨_, .whole (houtcome ▸ hends) hrest⟩
      · exact ⟨_, .trailing (houtcome ▸ hends) hrest⟩

private theorem parses_iff {text : List UInt8} {result : Except ReadError Document} :
    Parses text result ↔ parse text = result := by
  constructor
  · exact parse_of_parses
  · rintro rfl
    obtain ⟨result, h⟩ := exists_parses text
    exact (parse_of_parses h).symm ▸ h

/-- A value that is read takes up bytes, and so does every member and element in a loop. A value
inside of another has fewer unread bytes, so calls are not nested without end. The equations of the
reader hold without a bound, each call ends with exactly one outcome, and any bound that is large
enough leads to it; so does reading a text as a whole. -/
theorem reading_progresses_and_ends (text : List UInt8) :
    (∀ fuel path draft rest, Call.run fuel (.value path text) = .ok (draft, rest) →
      rest <:+ text ∧ rest.length < text.length) ∧
    (∀ call next : Call, call.Repeats Call.outcome next →
      next.text <:+ call.text ∧ next.text.length < call.text.length) ∧
    (∀ path next, Relation.TransGen (Call.Makes Call.outcome) (.value path text) next →
      next.text.length < text.length) ∧
    WellFounded (fun next call : Call => call.Makes Call.outcome next) ∧
    (∀ call : Call, call.outcome = call.step Call.outcome ∧ ∃! result, call.Ends result) ∧
    (∀ (call : Call) (fuel : Nat), call.bound ≤ fuel → call.Ends (call.run fuel)) ∧
    (∃! result, Parses text result) ∧ Parses text (parse text) := by
  refine ⟨?_, ?_, ?_, Call.makes_wellFounded, ?_, ?_, ?_, parses_iff.mpr rfl⟩
  · intro fuel path draft rest hread
    have hadvances := Call.advances_of_run hread
    exact ⟨hadvances.suffix, hadvances.shorter⟩
  · intro call next hrepeats
    have hadvances := hrepeats.advances (Call.forwards_outcome call)
    exact ⟨hadvances.suffix, hadvances.shorter⟩
  · intro path next hnested
    exact Call.shorter_of_transGen hnested
  · intro call
    refine ⟨call.outcome_eq_step, call.outcome, Call.ends_iff.mpr rfl, ?_⟩
    intro result hresult
    exact (Call.ends_iff.mp hresult).symm
  · intro call fuel hbound
    exact Call.ends_run hbound
  · refine ⟨parse text, parses_iff.mpr rfl, ?_⟩
    intro result hresult
    exact (parses_iff.mp hresult).symm

/-- `,[null}` and then nothing: a stray comma, brackets that do not match and an end too early. -/
def brokenText : List UInt8 :=
  [0x2c, 0x5b, 0x6e, 0x75, 0x6c, 0x6c, 0x7d]

theorem reading_progresses_and_ends_broken :
    ([] : List UInt8).length < brokenText.length ∧
    (Call.items [] [.list [.null]] []).text.length < (Call.items [] [] brokenText).text.length ∧
    (Call.items [] [] brokenText).Ends (.error .unclosed) ∧
    Parses brokenText (.ok (.array [.null])) := by
  have hvalue : Call.run 3 (.value [] brokenText) = .ok (.list [.null], []) := rfl
  have hloop : (Call.items [] [] brokenText).Repeats Call.outcome
      (Call.items [] [.list [.null]] []) :=
    .item rfl rfl
  obtain ⟨hprogress, hrepeats, -, -, -, hends, -, hparses⟩ := reading_progresses_and_ends brokenText
  exact ⟨(hprogress 3 [] _ _ hvalue).2, (hrepeats _ _ hloop).2, hends _ 16 (by decide), hparses⟩

end SchemaCodec.Json
