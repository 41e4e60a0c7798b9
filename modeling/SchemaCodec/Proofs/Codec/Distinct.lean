import Mathlib.Data.List.Basic
import Mathlib.Data.List.Induction
import SchemaCodec.Codec.Dependencies

namespace SchemaCodec.Codec

/-! Lists in which every entry is kept where it first occurs. -/

private theorem mem_foldl_addNew {known entries : List String} {entry : String} :
    entry ∈ entries.foldl (addNew id) known ↔ entry ∈ known ∨ entry ∈ entries := by
  induction entries generalizing known with
  | nil => simp
  | cons first rest ih =>
      rw [List.foldl_cons, ih, addNew]
      split
      · next hknown =>
          have hfirst : first ∈ known := by simpa using hknown
          rw [List.mem_cons]
          constructor
          · exact Or.imp_right .inr
          · intro h
            rcases h with h | rfl | h
            · exact .inl h
            · exact .inl hfirst
            · exact .inr h
      · simp [or_assoc]

theorem mem_distinctBy {entries : List String} {entry : String} :
    entry ∈ distinctBy id entries ↔ entry ∈ entries := by
  rw [distinctBy, mem_foldl_addNew]
  simp

/-- The entries of a list without repetitions, in the order in which they first occur. -/
structure FirstOccurrences (entries firsts : List String) : Prop where
  mem_iff : ∀ entry, entry ∈ firsts ↔ entry ∈ entries
  ordered : firsts.Pairwise fun first second => entries.idxOf first < entries.idxOf second

theorem FirstOccurrences.nodup {entries firsts : List String}
    (h : FirstOccurrences entries firsts) : firsts.Nodup := by
  refine List.Pairwise.imp ?_ h.ordered
  rintro first second hlt rfl
  exact Nat.lt_irrefl _ hlt

theorem firstOccurrences_distinctBy (entries : List String) :
    FirstOccurrences entries (distinctBy id entries) := by
  refine ⟨fun _ => mem_distinctBy, ?_⟩
  induction entries using List.reverseRecOn with
  | nil => exact .nil
  | append_singleton entries entry ih =>
      -- Entries that were there before stay where they first occur.
      have hbefore : (distinctBy id entries).Pairwise fun first second =>
          (entries ++ [entry]).idxOf first < (entries ++ [entry]).idxOf second := by
        refine ih.imp_of_mem fun hfirst hsecond hlt => ?_
        rwa [List.idxOf_append_of_mem (mem_distinctBy.mp hfirst),
          List.idxOf_append_of_mem (mem_distinctBy.mp hsecond)]
      have hstep : distinctBy id (entries ++ [entry]) =
          addNew id (distinctBy id entries) entry := by
        rw [distinctBy, List.foldl_append]
        rfl
      rw [hstep, addNew]
      split
      · exact hbefore
      · next hnew =>
          have hentry : entry ∉ entries := by
            intro hmem
            exact hnew (by simpa using mem_distinctBy.mpr hmem)
          rw [List.pairwise_append]
          refine ⟨hbefore, List.pairwise_singleton _ _, fun first hfirst second hsecond => ?_⟩
          rw [List.mem_singleton.mp hsecond, List.idxOf_append_of_mem (mem_distinctBy.mp hfirst),
            List.idxOf_append_of_notMem hentry]
          have hlt := List.idxOf_lt_length_of_mem (mem_distinctBy.mp hfirst)
          omega

end SchemaCodec.Codec
