import SchemaCodec.Proofs.Order.Walk

namespace SchemaCodec.Declaration

open Relation

/-! Walks with no bound on how deep they go. The order of declarations is that of such a walk: the
bound it is computed with is never met. -/

variable {targets : Nat → List Nat} {count : Nat}

/-- A walk goes through positions one after another. Those it knows it passes by; a new one it
enters, goes through its targets, and leaves. -/
inductive Traverses (targets : Nat → List Nat) : Walk → List Nat → Walk → Prop
  | done {walk : Walk} : Traverses targets walk [] walk
  | pass {walk last : Walk} {i : Nat} {rest : List Nat} (known : i ∈ walk.entered)
      (after : Traverses targets walk rest last) : Traverses targets walk (i :: rest) last
  | enter {walk inner last : Walk} {i : Nat} {rest : List Nat} (new : i ∉ walk.entered)
      (below : Traverses targets (walk.enter i) (targets i) inner)
      (after : Traverses targets (inner.leave i) rest last) :
      Traverses targets walk (i :: rest) last

namespace Walk

private theorem visit_known {fuel : Nat} {walk : Walk} {i : Nat} (h : i ∈ walk.entered) :
    visit targets fuel walk i = walk := by
  cases fuel with
  | zero => rfl
  | succ fuel => rw [visit, if_pos h]

/-- Fuel for all positions that are not entered yet is fuel enough. -/
theorem traverses_foldl (htargets : ∀ i, ∀ j ∈ targets i, j < count) {fuel : Nat} {walk : Walk}
    {positions : List Nat} (hsound : walk.Sound targets count)
    (hpositions : ∀ i ∈ positions, i < count) (hfuel : count ≤ walk.entered.length + fuel)
    (hpending : ∀ i ∈ positions, ∀ j, walk.Pending j →
      TransGen (fun i j => j ∈ targets i) j i) :
    Traverses targets walk positions (positions.foldl (visit targets fuel) walk) := by
  induction fuel using Nat.strongRecOn generalizing walk positions with
  | _ fuel below =>
      induction positions generalizing walk with
      | nil => exact .done
      | cons i rest ih =>
          obtain ⟨hi, hrest⟩ := List.forall_mem_cons.mp hpositions
          obtain ⟨hpendingHere, hpendingRest⟩ := List.forall_mem_cons.mp hpending
          rw [List.foldl_cons]
          by_cases hknown : i ∈ walk.entered
          · rw [visit_known hknown]
            exact .pass hknown (ih hsound hrest hfuel hpendingRest)
          · have hlength := hsound.length_lt hi hknown
            obtain ⟨left, rfl⟩ : ∃ left, fuel = left + 1 := ⟨fuel - 1, by omega⟩
            have hentered : (walk.enter i).entered.length = walk.entered.length + 1 := rfl
            obtain ⟨hafter, hextends, -⟩ :=
              visits htargets (left + 1) walk i hsound hi hfuel hpendingHere
            have hgrown := hextends.entered.length_le
            rw [visit_new hknown] at hafter hextends hgrown ⊢
            refine .enter hknown ?_ (ih hafter hrest (by omega) ?_)
            · exact below left (Nat.lt_succ_self left) (hsound.enter hi hknown) (htargets i)
                (by omega) (pending_leads_to_targets hsound hknown hpendingHere)
            · intro j hj k hk
              exact hpendingRest j hj k ((hextends.pending k).mp hk)

end Walk

namespace Traverses

variable {walk last : Walk} {positions : List Nat}

theorem split {front back : List Nat} (h : Traverses targets walk (front ++ back) last) :
    ∃ middle, Traverses targets walk front middle ∧ Traverses targets middle back last := by
  induction front generalizing walk with
  | nil => exact ⟨walk, .done, h⟩
  | cons i rest ih =>
      cases h with
      | pass known after =>
          obtain ⟨middle, hfront, hback⟩ := ih after
          exact ⟨middle, .pass known hfront, hback⟩
      | enter new below after =>
          obtain ⟨middle, hfront, hback⟩ := ih after
          exact ⟨middle, .enter new below hfront, hback⟩

theorem left_suffix (h : Traverses targets walk positions last) : walk.left <:+ last.left := by
  induction h with
  | done => exact List.suffix_rfl
  | pass _ _ ih => exact ih
  | @enter walk inner last i rest _ _ _ ihbelow ihafter =>
      exact ihbelow.trans ((List.suffix_cons i inner.left).trans ihafter)

private theorem entered_subset (h : Traverses targets walk positions last) :
    ∀ i ∈ walk.entered, i ∈ last.entered := by
  induction h with
  | done => exact fun i hi => hi
  | pass _ _ ih => exact ih
  | enter _ _ _ ihbelow ihafter =>
      intro j hj
      exact ihafter j (ihbelow j (List.mem_cons_of_mem _ hj))

theorem entered_of_mem (h : Traverses targets walk positions last) :
    ∀ i ∈ positions, i ∈ last.entered := by
  induction h with
  | done => exact List.forall_mem_nil _
  | pass known after ih =>
      exact List.forall_mem_cons.mpr ⟨after.entered_subset _ known, ih⟩
  | enter _ below after _ ih =>
      refine List.forall_mem_cons.mpr ⟨?_, ih⟩
      exact after.entered_subset _ (below.entered_subset _ (List.mem_cons_self ..))

/-- All positions that are entered on the way are left. -/
theorem left_of_entered (h : Traverses targets walk positions last) :
    ∀ i ∈ last.entered, i ∈ walk.entered ∨ i ∈ last.left := by
  induction h with
  | done => exact fun i hi => .inl hi
  | pass _ _ ih => exact ih
  | @enter walk inner last i rest _ _ after ihbelow ihafter =>
      have hleft : ∀ j ∈ i :: inner.left, j ∈ last.left := after.left_suffix.subset
      intro j hj
      rcases ihafter j hj with hinner | hlast
      · rcases ihbelow j hinner with hbefore | hinner
        · rcases List.mem_cons.mp hbefore with rfl | hbefore
          · exact .inr (hleft j (List.mem_cons_self ..))
          · exact .inl hbefore
        · exact .inr (hleft j (List.mem_cons_of_mem _ hinner))
      · exact .inr hlast

/-- A position is left only if one of those to go through leads to it. -/
theorem reached_of_left (h : Traverses targets walk positions last) :
    ∀ j ∈ last.left, j ∈ walk.left ∨
      ∃ k ∈ positions, ReflTransGen (fun i j => j ∈ targets i) k j := by
  induction h with
  | done => exact fun j hj => .inl hj
  | pass _ _ ih =>
      intro j hj
      rcases ih j hj with hbefore | ⟨k, hk, hreach⟩
      · exact .inl hbefore
      · exact .inr ⟨k, List.mem_cons_of_mem _ hk, hreach⟩
  | @enter walk inner last i rest _ _ _ ihbelow ihafter =>
      intro j hj
      rcases ihafter j hj with hinner | ⟨k, hk, hreach⟩
      · rcases List.mem_cons.mp hinner with rfl | hinner
        · exact .inr ⟨j, List.mem_cons_self .., .refl⟩
        · rcases ihbelow j hinner with hbefore | ⟨k, hk, hreach⟩
          · exact .inl hbefore
          · exact .inr ⟨i, List.mem_cons_self .., .head hk hreach⟩
      · exact .inr ⟨k, List.mem_cons_of_mem _ hk, hreach⟩

end Traverses

theorem order_traversal (declarations : List Declaration) :
    ∃ walk : Walk, order declarations = walk.left.reverse ∧
      Traverses (Declaration.targets declarations) ⟨[], []⟩ (List.range declarations.length)
        walk := by
  refine ⟨_, rfl, ?_⟩
  apply Walk.traverses_foldl (fun i j => lt_length_of_mem_targets) Walk.sound_empty
  · exact fun i hi => List.mem_range.mp hi
  · exact Nat.le_add_left ..
  · exact fun i _ j hj => absurd hj (Walk.not_pending_empty j)

end SchemaCodec.Declaration
