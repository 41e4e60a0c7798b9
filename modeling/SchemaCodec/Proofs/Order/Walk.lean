import Mathlib.Logic.Relation
import SchemaCodec.Codec.Order

namespace SchemaCodec.Declaration

open Relation

/-! Walks over declarations: a position is left behind all of its targets, except for those from
which it can be reached again. -/

variable {targets : Nat → List Nat} {count : Nat}

/-- Each position in a list stands in front of its targets, up to cycles. -/
def Settled (targets : Nat → List Nat) : List Nat → Prop
  | [] => True
  | i :: rest =>
    (∀ j ∈ targets i, j ∈ rest ∨ TransGen (fun i j => j ∈ targets i) j i) ∧
      Settled targets rest

theorem Settled.split {before after : List Nat} {i j : Nat}
    (h : Settled targets (before ++ i :: after)) (hj : j ∈ targets i) :
    j ∈ after ∨ TransGen (fun i j => j ∈ targets i) j i := by
  induction before with
  | nil => exact h.1 j hj
  | cons first rest ih => exact ih h.2

namespace Walk

/-- A position has been entered and not been left again. -/
def Pending (walk : Walk) (i : Nat) : Prop :=
  i ∈ walk.entered ∧ i ∉ walk.left

/-- What holds of every walk. -/
structure Sound (targets : Nat → List Nat) (count : Nat) (walk : Walk) : Prop where
  entered_lt : ∀ i ∈ walk.entered, i < count
  entered_nodup : walk.entered.Nodup
  left_entered : ∀ i ∈ walk.left, i ∈ walk.entered
  left_nodup : walk.left.Nodup
  settled : Settled targets walk.left

/-- A walk goes on and comes back to where it was. -/
structure Extends (before after : Walk) : Prop where
  entered : before.entered <:+ after.entered
  pending : ∀ i, after.Pending i ↔ before.Pending i

theorem Extends.refl (walk : Walk) : walk.Extends walk :=
  ⟨List.suffix_rfl, fun _ => Iff.rfl⟩

theorem Extends.trans {first second third : Walk} (hfirst : first.Extends second)
    (hsecond : second.Extends third) : first.Extends third :=
  ⟨hfirst.entered.trans hsecond.entered,
    fun i => (hsecond.pending i).trans (hfirst.pending i)⟩

/-! Entering and leaving a position -/

def enter (walk : Walk) (i : Nat) : Walk :=
  ⟨i :: walk.entered, walk.left⟩

def leave (walk : Walk) (i : Nat) : Walk :=
  ⟨walk.entered, i :: walk.left⟩

theorem Sound.enter {walk : Walk} {i : Nat} (h : walk.Sound targets count) (hi : i < count)
    (hnew : i ∉ walk.entered) : (walk.enter i).Sound targets count where
  entered_lt := List.forall_mem_cons.mpr ⟨hi, h.entered_lt⟩
  entered_nodup := List.nodup_cons.mpr ⟨hnew, h.entered_nodup⟩
  left_entered := fun j hj => List.mem_cons_of_mem _ (h.left_entered j hj)
  left_nodup := h.left_nodup
  settled := h.settled

theorem Sound.length_lt {walk : Walk} {i : Nat} (h : walk.Sound targets count) (hi : i < count)
    (hnew : i ∉ walk.entered) : walk.entered.length < count := by
  have hentered := h.enter hi hnew
  have hrange : (walk.enter i).entered ⊆ List.range count :=
    fun j hj => List.mem_range.mpr (hentered.entered_lt j hj)
  have hlength := hentered.entered_nodup.length_le_of_subset hrange
  rwa [List.length_range] at hlength

private theorem pending_enter {walk : Walk} {i j : Nat} (h : walk.Sound targets count)
    (hnew : i ∉ walk.entered) : (walk.enter i).Pending j ↔ j = i ∨ walk.Pending j := by
  unfold Pending enter
  rw [List.mem_cons, or_and_right]
  apply or_congr_left
  constructor
  · exact And.left
  · intro hj
    subst j
    exact ⟨rfl, fun hleft => hnew (h.left_entered i hleft)⟩

theorem Sound.leave {walk : Walk} {i : Nat} (h : walk.Sound targets count)
    (hpending : walk.Pending i)
    (htargets : ∀ j ∈ targets i, j ∈ walk.left ∨ TransGen (fun i j => j ∈ targets i) j i) :
    (walk.leave i).Sound targets count where
  entered_lt := h.entered_lt
  entered_nodup := h.entered_nodup
  left_entered := List.forall_mem_cons.mpr ⟨hpending.1, h.left_entered⟩
  left_nodup := List.nodup_cons.mpr ⟨hpending.2, h.left_nodup⟩
  settled := ⟨htargets, h.settled⟩

private theorem pending_leave {walk : Walk} {i j : Nat} :
    (walk.leave i).Pending j ↔ walk.Pending j ∧ j ≠ i := by
  unfold Pending leave
  rw [List.mem_cons, not_or, and_assoc, and_comm (a := ¬ j = i)]

/-! Visits -/

/-- A visit with the given fuel enters its position and leaves all positions that it enters. It
starts at a position that can be reached from all those that are pending, and the fuel lasts for the
positions that have not been entered. -/
def Visits (targets : Nat → List Nat) (count fuel : Nat) : Prop :=
  ∀ walk i, walk.Sound targets count → i < count → count ≤ walk.entered.length + fuel →
    (∀ j, walk.Pending j → TransGen (fun i j => j ∈ targets i) j i) →
    (visit targets fuel walk i).Sound targets count ∧
      walk.Extends (visit targets fuel walk i) ∧ i ∈ (visit targets fuel walk i).entered

theorem Visits.foldl {fuel : Nat} (h : Visits targets count fuel) {positions : List Nat}
    {walk : Walk} (hsound : walk.Sound targets count) (hpositions : ∀ i ∈ positions, i < count)
    (hfuel : count ≤ walk.entered.length + fuel)
    (hpending : ∀ i ∈ positions, ∀ j, walk.Pending j →
      TransGen (fun i j => j ∈ targets i) j i) :
    (positions.foldl (visit targets fuel) walk).Sound targets count ∧
      walk.Extends (positions.foldl (visit targets fuel) walk) ∧
      ∀ i ∈ positions, i ∈ (positions.foldl (visit targets fuel) walk).entered := by
  induction positions generalizing walk with
  | nil => exact ⟨hsound, .refl walk, List.forall_mem_nil _⟩
  | cons first rest ih =>
      obtain ⟨hfirst, hrest⟩ := List.forall_mem_cons.mp hpositions
      obtain ⟨hpendingFirst, hpendingRest⟩ := List.forall_mem_cons.mp hpending
      obtain ⟨hmiddle, hextends, hentered⟩ := h walk first hsound hfirst hfuel hpendingFirst
      have hlength := hextends.entered.length_le
      obtain ⟨hafter, hfurther, hall⟩ := ih hmiddle hrest (by omega)
        fun i hi j hj => hpendingRest i hi j ((hextends.pending j).mp hj)
      refine ⟨hafter, hextends.trans hfurther, ?_⟩
      exact List.forall_mem_cons.mpr ⟨hfurther.entered.subset hentered, hall⟩

/-- Every open position that has led to `i` leads to the targets of `i`. -/
theorem pending_leads_to_targets {walk : Walk} {i : Nat} (h : walk.Sound targets count)
    (hnew : i ∉ walk.entered)
    (hpending : ∀ j, walk.Pending j → TransGen (fun i j => j ∈ targets i) j i) :
    ∀ j ∈ targets i, ∀ k, (walk.enter i).Pending k →
      TransGen (fun i j => j ∈ targets i) k j := by
  intro j hj k hk
  rcases (pending_enter h hnew).mp hk with rfl | hk
  · exact .single hj
  · exact (hpending k hk).tail hj

theorem visit_new {fuel : Nat} {walk : Walk} {i : Nat} (h : i ∉ walk.entered) :
    visit targets (fuel + 1) walk i =
      ((targets i).foldl (visit targets fuel) (walk.enter i)).leave i := by
  rw [visit, if_neg h]
  rfl

theorem visits (htargets : ∀ i, ∀ j ∈ targets i, j < count) (fuel : Nat) :
    Visits targets count fuel := by
  induction fuel with
  | zero =>
      intro walk i hsound hi hfuel _
      refine ⟨hsound, .refl walk, ?_⟩
      -- The fuel counts the nodes not entered yet, so none is left.
      apply Decidable.byContradiction
      intro hnew
      have hlength := hsound.length_lt hi hnew
      omega
  | succ fuel ih =>
      intro walk i hsound hi hfuel hpending
      by_cases hknown : i ∈ walk.entered
      · rw [visit, if_pos hknown]
        exact ⟨hsound, .refl walk, hknown⟩
      · have hentered : ∀ j, (walk.enter i).Pending j ↔ j = i ∨ walk.Pending j :=
          fun j => pending_enter hsound hknown
        have hlength : (walk.enter i).entered.length = walk.entered.length + 1 := rfl
        obtain ⟨hafter, hextends, hall⟩ :=
          ih.foldl (hsound.enter hi hknown) (htargets i) (by omega)
            (pending_leads_to_targets hsound hknown hpending)
        rw [visit_new hknown]
        have hpendingHere := (hextends.pending i).mpr ((hentered i).mpr (.inl rfl))
        refine ⟨hafter.leave hpendingHere ?_, ⟨?_, ?_⟩, hpendingHere.1⟩
        · intro j hj
          by_cases hleft : j ∈ ((targets i).foldl (visit targets fuel) (walk.enter i)).left
          · exact .inl hleft
          · -- A target that is not left was entered before `i`, and `i` was reached from it.
            have hopen := (hextends.pending j).mp ⟨hall j hj, hleft⟩
            rcases (hentered j).mp hopen with rfl | hopen
            · exact .inr (.single hj)
            · exact .inr (hpending j hopen)
        · exact (List.suffix_cons i walk.entered).trans hextends.entered
        · intro j
          rw [pending_leave, hextends.pending, hentered]
          constructor
          · intro h
            exact h.1.resolve_left h.2
          · intro h
            exact ⟨.inr h, fun heq => hknown (heq ▸ h.1)⟩

theorem sound_empty : (Walk.mk [] []).Sound targets count :=
  ⟨List.forall_mem_nil _, List.nodup_nil, List.forall_mem_nil _, List.nodup_nil, trivial⟩

theorem not_pending_empty (i : Nat) : ¬ (Walk.mk [] []).Pending i := by
  intro h
  cases h.1

end Walk

/-! The order of declarations -/

theorem lt_length_of_mem_targets {declarations : List Declaration} {i j : Nat}
    (h : j ∈ Declaration.targets declarations i) : j < declarations.length := by
  unfold Declaration.targets at h
  split at h
  · obtain ⟨name, -, hname⟩ := List.mem_filterMap.mp (List.mem_filter.mp h).1
    exact (List.findIdx?_eq_some_iff_findIdx_eq.mp hname).1
  · cases h

private theorem exists_sound_walk (declarations : List Declaration) :
    ∃ walk : Walk, order declarations = walk.left.reverse ∧
      walk.Sound (Declaration.targets declarations) declarations.length ∧
      ∀ i, i ∈ walk.left ↔ i < declarations.length := by
  have hrange : ∀ i ∈ List.range declarations.length, i < declarations.length :=
    fun i hi => List.mem_range.mp hi
  obtain ⟨hsound, hextends, hall⟩ :=
    (Walk.visits (fun i j => lt_length_of_mem_targets) declarations.length).foldl
      Walk.sound_empty hrange (by simp) (fun i _ j hj => absurd hj (Walk.not_pending_empty j))
  refine ⟨_, rfl, hsound, ?_⟩
  intro i
  constructor
  · intro hi
    exact hsound.entered_lt i (hsound.left_entered i hi)
  · intro hi
    apply Decidable.byContradiction
    intro hopen
    exact Walk.not_pending_empty i ((hextends.pending i).mp ⟨hall i (List.mem_range.mpr hi), hopen⟩)

/-- Every declaration has one place in the order. -/
theorem order_perm (declarations : List Declaration) :
    (order declarations).Perm (List.range declarations.length) := by
  obtain ⟨walk, horder, hsound, hmem⟩ := exists_sound_walk declarations
  rw [horder]
  refine (List.reverse_perm _).trans ?_
  apply (List.perm_ext_iff_of_nodup hsound.left_nodup List.nodup_range).mpr
  intro i
  rw [hmem, List.mem_range]

theorem filterMap_range (declarations : List Declaration) :
    (List.range declarations.length).filterMap (fun i => declarations[i]?) = declarations := by
  have hmap : (List.range declarations.length).map (fun i => declarations[i]?) =
      declarations.map some := by
    apply List.ext_getElem
    · simp
    · intro i hi _
      simp
  calc (List.range declarations.length).filterMap (fun i => declarations[i]?)
      = ((List.range declarations.length).map fun i => declarations[i]?).filterMap id := by
        rw [List.filterMap_map]
        rfl
    _ = (declarations.map some).filterMap id := by rw [hmap]
    _ = declarations := by simp

theorem sort_perm (declarations : List Declaration) :
    (sort declarations).Perm declarations := by
  have hperm := (order_perm declarations).filterMap fun i => declarations[i]?
  rwa [filterMap_range] at hperm

theorem mem_sort {declarations : List Declaration} {declaration : Declaration} :
    declaration ∈ sort declarations ↔ declaration ∈ declarations :=
  (sort_perm declarations).mem_iff

/-- A declaration stands behind those it refers to, except where they lead back to it. -/
theorem order_settled {declarations : List Declaration} {i j : Nat}
    (hj : j ∈ Declaration.targets declarations i) (hi : i < declarations.length) :
    TransGen (fun i j => j ∈ Declaration.targets declarations i) j i ∨
      ∃ before after, order declarations = before ++ i :: after ∧ j ∈ before := by
  obtain ⟨walk, horder, hsound, hmem⟩ := exists_sound_walk declarations
  obtain ⟨after, before, hleft⟩ := List.append_of_mem ((hmem i).mpr hi)
  have hsettled := hsound.settled
  rw [hleft] at hsettled
  rcases hsettled.split hj with hbefore | hcycle
  · refine .inr ⟨before.reverse, after.reverse, ?_, List.mem_reverse.mpr hbefore⟩
    rw [horder, hleft, List.reverse_append, List.reverse_cons, List.append_assoc]
    rfl
  · exact .inl hcycle

end SchemaCodec.Declaration
