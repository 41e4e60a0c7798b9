import SchemaCodec.Json.Reader
import SchemaCodec.Proofs.Document.Drafts
import SchemaCodec.Proofs.Except
import SchemaCodec.Proofs.Json.Tokens

namespace SchemaCodec.Json

open SchemaCodec
open Document

/-! What each step of the reader does, and that it yields sound drafts of well-formed documents
only. -/

section Keys

variable {path : Pointer} {known : Table Draft} {key : String} {text inner : List UInt8}

theorem readKey_again (hscan : scan text = .token (.scalar (.string key)) inner)
    (hknown : (known.place? key).isSome = true) :
    readKey path known text = .error (.duplicateKey key path) := by
  rw [readKey, hscan]
  exact if_pos hknown

theorem readKey_new (hscan : scan text = .token (.scalar (.string key)) inner)
    (hnew : known.place? key = none) : readKey path known text = .ok (key, inner) := by
  rw [readKey, hscan]
  exact if_neg (by rw [hnew]; exact Bool.false_ne_true)

theorem cases_of_readKey (h : readKey path known text = .ok (key, inner)) :
    scan text = .token (.scalar (.string key)) inner ∧ known.place? key = none := by
  unfold readKey at h
  split at h
  case h_1 => cases h
  case h_2 => cases h
  case h_3 hscan =>
    split at h
    · cases h
    · next hnew =>
      cases h
      exact ⟨hscan, Option.not_isSome_iff_eq_none.mp hnew⟩
  case h_4 => cases h

private theorem readKey_congr {other : List UInt8} (hscan : scan text = scan other) :
    readKey path known text = readKey path known other := by
  rw [readKey, readKey, hscan]

end Keys

section Closing

variable {contents found : Draft} {text other rest : List UInt8}

private theorem close_congr (hscan : scan text = scan other) :
    close contents text = close contents other := by
  rw [close, close, hscan]

private theorem close_of_scan {token : Token} (hscan : scan text = .token token rest) :
    close contents text = .ok (contents, rest) := by
  rw [close, hscan]

theorem cases_of_close (h : close contents text = .ok (found, rest)) :
    found = contents ∧ ∃ token, scan text = .token token rest := by
  unfold close at h
  split at h
  case h_1 token _ hscan =>
    cases h
    exact ⟨rfl, token, hscan⟩
  case h_2 => cases h
  case h_3 => cases h

end Closing

namespace Call

section Steps

variable {fuel : Nat} {path : Pointer} {text other inner rest : List UInt8}

private theorem run_succ (fuel : Nat) (call : Call) : run (fuel + 1) call = call.step (run fuel) :=
  rfl

private theorem step_items {read : Call → Outcome} {known : List Draft} :
    step read (.items path known text) =
      if hasMore text then
        read (.value (path ++ [toString known.length]) text) >>= fun item =>
          read (.items path (item.1 :: known) item.2)
      else close (.list known.reverse) text :=
  rfl

private theorem step_members {read : Call → Outcome} {known : Table Draft} :
    step read (.members path known text) =
      if hasMore text then
        readKey path known text >>= fun key =>
          read (.value (path ++ [key.1]) key.2) >>= fun member =>
            read (.members path (known.push key.1 member.1) member.2)
      else close (.object known) text :=
  rfl

theorem run_scalar {value : Document} (hscan : scan text = .token (.scalar value) rest) :
    run (fuel + 1) (.value path text) = .ok (.whole value, rest) := by
  rw [run_succ]
  delta step
  dsimp only
  rw [hscan]

theorem run_array (hscan : scan text = .token .openArray inner) :
    run (fuel + 1) (.value path text) = run fuel (.items path [] inner) := by
  rw [run_succ]
  delta step
  dsimp only
  rw [hscan]

theorem run_object (hscan : scan text = .token .openObject inner) :
    run (fuel + 1) (.value path text) = run fuel (.members path .empty inner) := by
  rw [run_succ]
  delta step
  dsimp only
  rw [hscan]

theorem run_item {known : List Draft} (hmore : hasMore text = true) :
    run (fuel + 1) (.items path known text) =
      run fuel (.value (path ++ [toString known.length]) text) >>= fun read =>
        run fuel (.items path (read.1 :: known) read.2) := by
  rw [run_succ, step_items, if_pos hmore]

theorem run_lastItem {known : List Draft} {token : Token} (hmore : hasMore text = false)
    (hscan : scan text = .token token rest) :
    run (fuel + 1) (.items path known text) = .ok (.list known.reverse, rest) := by
  rw [run_succ, step_items, hmore]
  exact close_of_scan hscan

theorem run_member {known : Table Draft} {key : String} (hmore : hasMore text = true)
    (hkey : readKey path known text = .ok (key, inner)) :
    run (fuel + 1) (.members path known text) =
      run fuel (.value (path ++ [key]) inner) >>= fun read =>
        run fuel (.members path (known.push key read.1) read.2) := by
  rw [run_succ, step_members, if_pos hmore, hkey]
  rfl

theorem run_repeated {known : Table Draft} {cause : ReadError} (hmore : hasMore text = true)
    (hkey : readKey path known text = .error cause) :
    run (fuel + 1) (.members path known text) = .error cause := by
  rw [run_succ, step_members, if_pos hmore, hkey]
  rfl

theorem run_lastMember {known : Table Draft} {token : Token} (hmore : hasMore text = false)
    (hscan : scan text = .token token rest) :
    run (fuel + 1) (.members path known text) = .ok (.object known, rest) := by
  rw [run_succ, step_members, hmore]
  exact close_of_scan hscan

/-! What is skipped before the next token does not matter. -/

theorem run_value_congr (hscan : scan text = scan other) :
    run fuel (.value path text) = run fuel (.value path other) := by
  cases fuel with
  | zero => rfl
  | succ fuel =>
      rw [run_succ, run_succ]
      delta step
      dsimp only
      rw [hscan]

theorem run_items_congr {known : List Draft} (hmore : hasMore text = hasMore other)
    (hscan : scan text = scan other) :
    run fuel (.items path known text) = run fuel (.items path known other) := by
  cases fuel with
  | zero => rfl
  | succ fuel =>
      rw [run_succ, run_succ, step_items, step_items, hmore, run_value_congr hscan,
        close_congr hscan]

theorem run_members_congr {known : Table Draft} (hmore : hasMore text = hasMore other)
    (hscan : scan text = scan other) :
    run fuel (.members path known text) = run fuel (.members path known other) := by
  cases fuel with
  | zero => rfl
  | succ fuel =>
      rw [run_succ, run_succ, step_members, step_members, hmore, readKey_congr hscan,
        close_congr hscan]

theorem run_items_comma {known : List Draft} (hmore : hasMore text = true) :
    run fuel (.items path known (0x2c :: text)) = run fuel (.items path known text) :=
  run_items_congr hmore.symm (scan_filler rfl text)

theorem run_members_comma {known : Table Draft} (hmore : hasMore text = true) :
    run fuel (.members path known (0x2c :: text)) = run fuel (.members path known text) :=
  run_members_congr hmore.symm (scan_filler rfl text)

end Steps

end Call

/-! Soundness -/

/-- A sound draft of a well-formed document. -/
structure Proper (draft : Draft) : Prop where
  sound : draft.Sound
  wellFormed : draft.document.WellFormed

private theorem IsScalar.proper {d : Document} (h : IsScalar d) : Proper (.whole d) := by
  cases h with
  | null => exact ⟨.null, .null⟩
  | bool value => exact ⟨.bool value, .bool value⟩
  | number htext => exact ⟨.number _, .number htext⟩
  | string text => exact ⟨.string text, .string text⟩

private theorem proper_list {items : List Draft} (hitems : ∀ item ∈ items, Proper item) :
    Proper (.list items) where
  sound := .list fun item hitem => (hitems item hitem).sound
  wellFormed := by
    rw [Draft.document_list]
    refine .array fun d hd => ?_
    obtain ⟨item, hitem, rfl⟩ := List.mem_map.mp hd
    exact (hitems item hitem).wellFormed

private theorem proper_object {table : Table Draft} (htable : table.Sound)
    (hvalues : ∀ member ∈ table.members, Proper member.2) : Proper (.object table) := by
  have hsound : (Draft.object table).Sound :=
    .object htable fun member hmember => (hvalues member hmember).sound
  refine ⟨hsound, ?_⟩
  have hkeys := hsound.nodup_document
  rw [Draft.document_object] at hkeys ⊢
  refine .object hkeys fun member hmember => ?_
  obtain ⟨part, hpart, rfl⟩ := List.mem_map.mp hmember
  exact (hvalues part hpart).wellFormed

namespace Call

/-- What is known is as it should be. -/
def Proper : Call → Prop
  | .value .. => True
  | .members _ known _ => known.Sound ∧ ∀ member ∈ known.members, Json.Proper member.2
  | .items _ known _ => ∀ item ∈ known, Json.Proper item

/-- The index is kept by hand: it stays sound since no key is put into it twice. -/
theorem proper_push {path : Pointer} {known : Table Draft} {key : String} {draft : Draft}
    {text rest : List UInt8} (h : (Call.members path known text).Proper)
    (hnew : known.place? key = none) (hdraft : Json.Proper draft) :
    (Call.members path (known.push key draft) rest).Proper := by
  refine ⟨h.1.push hnew, fun member hmember => ?_⟩
  rcases List.mem_append.mp hmember with hknown | hlast
  · exact h.2 member hknown
  · rw [List.mem_singleton.mp hlast]
    exact hdraft

private theorem proper_of_step {read : Call → Outcome} {call : Call} {draft : Draft}
    {rest : List UInt8}
    (hread : ∀ next draft rest, read next = .ok (draft, rest) → next.Proper → Json.Proper draft)
    (hcall : call.Proper) (h : call.step read = .ok (draft, rest)) : Json.Proper draft := by
  cases call with
  | value path text =>
      rw [step] at h
      split at h
      case h_1 => cases h
      case h_2 => cases h
      case h_3 hscan =>
        cases h
        exact (isScalar_of_scan hscan).proper
      case h_4 => cases h
      case h_5 => cases h
      case h_6 => exact hread _ _ _ h ⟨Table.sound_empty, List.forall_mem_nil _⟩
      case h_7 => exact hread _ _ _ h (List.forall_mem_nil _)
  | members path known text =>
      rw [step] at h
      split at h
      · obtain ⟨⟨key, inner⟩, hkey, h⟩ := exists_of_bind_eq_ok h
        obtain ⟨⟨value, tail⟩, hvalue, h⟩ := exists_of_bind_eq_ok h
        have hdraft : Json.Proper value := hread _ _ _ hvalue trivial
        exact hread _ _ _ h (proper_push hcall (cases_of_readKey hkey).2 hdraft)
      · rw [(cases_of_close h).1]
        exact proper_object hcall.1 hcall.2
  | items path known text =>
      rw [step] at h
      split at h
      · obtain ⟨⟨item, tail⟩, hitem, h⟩ := exists_of_bind_eq_ok h
        have hdraft : Json.Proper item := hread _ _ _ hitem trivial
        exact hread _ _ _ h (List.forall_mem_cons.mpr ⟨hdraft, hcall⟩)
      · rw [(cases_of_close h).1]
        exact proper_list fun item hitem => hcall item (List.mem_reverse.mp hitem)

private theorem proper_of_run {fuel : Nat} {call : Call} {draft : Draft} {rest : List UInt8}
    (h : call.run fuel = .ok (draft, rest)) (hcall : call.Proper) : Json.Proper draft := by
  induction fuel generalizing call draft rest with
  | zero => cases call <;> cases h
  | succ fuel ih => exact proper_of_step (fun next draft rest => ih) hcall h

end Call

theorem proper_of_read {text : List UInt8} {draft : Draft} (h : read text = .ok draft) :
    Proper draft := by
  obtain ⟨⟨value, rest⟩, hvalue, hend⟩ := exists_of_bind_eq_ok h
  have hproper : Proper value := Call.proper_of_run hvalue trivial
  dsimp only at hend
  split at hend
  · cases hend
    exact hproper
  · cases hend

theorem wellFormed_of_parse {text : List UInt8} {d : Document} (hparse : parse text = .ok d) :
    d.WellFormed := by
  obtain ⟨draft, hread, rfl⟩ := map_eq_ok_iff.mp hparse
  exact (proper_of_read hread).wellFormed

end SchemaCodec.Json
