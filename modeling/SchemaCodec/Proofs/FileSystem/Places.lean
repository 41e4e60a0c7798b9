import SchemaCodec.FileSystem
import SchemaCodec.Proofs.Except
import SchemaCodec.Proofs.Path.Routes

namespace SchemaCodec.FileSystem

open SchemaCodec.Path

/-! Where paths lead. A path has its place whether or not something stands there; a file system in
which nothing hangs in the air finds what stands at the place of a clean path. -/

def start (fs : FileSystem) (path : String) : List String :=
  if isRooted path then [] else fs.here

def place (fs : FileSystem) (path : String) : List String :=
  (segments path).foldl advance (fs.start path)

variable {fs : FileSystem}

instance (segment : String) : Decidable (IsName segment) :=
  decidable_of_iff (segment ≠ "" ∧ segment ≠ "." ∧ segment ≠ "..")
    ⟨fun h => ⟨h.1, h.2.1, h.2.2⟩, fun h => ⟨h.ne_empty, h.ne_dot, h.ne_dots⟩⟩

private theorem start_eq_nil {path : String} (h : isRooted path = true) : fs.start path = [] :=
  if_pos h

private theorem place_eq (path : String) :
    fs.place path = (position path).reverse.foldl advance (fs.start path) :=
  (advance_foldl Direct.start (fun h => start_eq_nil h)
    fun _ hpart => not_mem_of_mem_segments hpart).symm

/-- Detours change nothing. -/
theorem place_clean (path : String) : fs.place (clean path) = fs.place path := by
  have hdirect := direct_position path
  rw [place_eq, place_eq, clean_eq, position_ofSteps hdirect, start, isRooted_ofSteps hdirect]
  rfl

theorem place_slash {before : String} (h : before ≠ "") (after : String) :
    fs.place (before ++ "/" ++ after) = (segments after).foldl advance (fs.place before) := by
  rw [place, segments_slash, List.foldl_append, start, String.append_assoc, isRooted_append h]
  rfl

/-! What is located is located at its place. -/

theorem step_eq_ok {location next : List String} {segment : String}
    (h : fs.step location segment = .ok next) :
    fs.entry? location = some .directory ∧ next = advance location segment := by
  unfold step at h
  split at h
  · cases h
  · cases h
  · next hentry =>
      refine ⟨hentry, ?_⟩
      unfold advance
      split at h
      · next hstay => rw [if_pos hstay]; exact (Except.ok.inj h).symm
      · next hstay =>
          rw [if_neg hstay]
          split at h
          · next hup => rw [if_pos hup]; exact (Except.ok.inj h).symm
          · next hup => rw [if_neg hup]; exact (Except.ok.inj h).symm

theorem step_of_directory {location : List String} (h : fs.entry? location = some .directory)
    (segment : String) : fs.step location segment = .ok (advance location segment) := by
  unfold step advance
  rw [h]
  dsimp only
  split
  · rfl
  · split <;> rfl

private theorem foldlM_step_eq_ok {parts location target : List String}
    (h : parts.foldlM fs.step location = .ok target) : target = parts.foldl advance location := by
  induction parts generalizing location with
  | nil => exact (Except.ok.inj h).symm
  | cons part rest ih =>
      rw [List.foldlM_cons] at h
      obtain ⟨next, hnext, hrest⟩ := exists_of_bind_eq_ok h
      rw [ih hrest, (step_eq_ok hnext).2, List.foldl_cons]

theorem locate_eq_ok {path : String} {location : List String} (h : fs.locate path = .ok location) :
    location = fs.place path := by
  unfold locate at h
  split at h
  · cases h
  · exact foldlM_step_eq_ok h

theorem find_eq_ok {path : String} {location : List String} {entry : Entry}
    (h : fs.find path = .ok (location, entry)) :
    location = fs.place path ∧ fs.entry? location = some entry := by
  obtain ⟨found, hfound, hentry⟩ := exists_of_bind_eq_ok h
  cases hstands : fs.entry? found with
  | none =>
      rw [hstands] at hentry
      cases hentry
  | some other =>
      rw [hstands] at hentry
      cases hentry
      exact ⟨locate_eq_ok hfound, hstands⟩

/-! File systems in which everything stands in a directory. -/

def locations (fs : FileSystem) : List (List String) :=
  fs.directories ++ fs.files.map Prod.fst

/-- Everything stands in a directory under a name that paths can have. -/
structure WellFormed (fs : FileSystem) : Prop where
  here : fs.entry? fs.here = some .directory
  parent : ∀ location ∈ fs.locations, fs.entry? location.dropLast = some .directory
  names : ∀ location ∈ fs.locations, ∀ name ∈ location, IsName name ∧ '/' ∉ name.toList

private theorem mem_locations {location : List String} {entry : Entry}
    (h : fs.entry? location = some entry) : location = [] ∨ location ∈ fs.locations := by
  unfold entry? at h
  split at h
  · next content hlookup =>
      obtain ⟨before, after, hfiles, -⟩ := List.lookup_eq_some_iff.mp hlookup
      right
      rw [locations, hfiles]
      simp
  · split at h
    · next hdirectory =>
        refine hdirectory.imp id fun hcontains => ?_
        rw [locations]
        exact List.mem_append_left _ (by simpa using hcontains)
    · cases h

theorem exists_entry_of_mem {location : List String} (h : location ∈ fs.locations) :
    ∃ entry, fs.entry? location = some entry := by
  unfold entry?
  cases hlookup : fs.files.lookup location with
  | some content => exact ⟨_, rfl⟩
  | none =>
      rcases List.mem_append.mp h with hdirectory | hfile
      · exact ⟨.directory, if_pos (.inr (by simpa using hdirectory))⟩
      · obtain ⟨⟨other, content⟩, hmem, rfl⟩ := List.mem_map.mp hfile
        have hnone := List.lookup_eq_none_iff.mp hlookup _ hmem
        simp at hnone

namespace WellFormed

theorem root (h : fs.WellFormed) : fs.entry? [] = some .directory := by
  unfold entry?
  cases hlookup : fs.files.lookup [] with
  | none => exact if_pos (.inl rfl)
  | some content =>
      -- A file at the root would have to stand in itself.
      have hentry : fs.entry? [] = some (.file content) := by
        unfold entry?
        rw [hlookup]
      obtain ⟨before, after, hfiles, -⟩ := List.lookup_eq_some_iff.mp hlookup
      have hparent := h.parent [] (by rw [locations, hfiles]; simp)
      rw [List.dropLast_nil, hentry] at hparent
      cases hparent

theorem above (h : fs.WellFormed) {location : List String} {entry : Entry}
    (hentry : fs.entry? location = some entry) :
    fs.entry? location.dropLast = some .directory := by
  rcases mem_locations hentry with rfl | hmem
  · exact h.root
  · exact h.parent location hmem

private theorem start_directory (h : fs.WellFormed) (path : String) :
    fs.entry? (fs.start path) = some .directory := by
  unfold start
  split
  · exact h.root
  · exact h.here

theorem climb (h : fs.WellFormed) {ups location : List String}
    (hups : ∀ segment ∈ ups, segment = "..") (hentry : fs.entry? location = some .directory) :
    fs.entry? (ups.foldl advance location) = some .directory := by
  induction ups generalizing location with
  | nil => exact hentry
  | cons segment rest ih =>
      apply ih fun other hother => hups other (List.mem_cons_of_mem _ hother)
      rw [hups segment (List.mem_cons_self ..), advance_up]
      exact h.above hentry

/-- The segments of a position can be followed to what stands there. -/
theorem follow (h : fs.WellFormed) {rooted : Bool} {position location : List String}
    (hdirect : Direct rooted position) (hlocation : fs.entry? location = some .directory)
    {entry : Entry} (hentry : fs.entry? (position.reverse.foldl advance location) = some entry) :
    position.reverse.foldlM fs.step location =
      .ok (position.reverse.foldl advance location) := by
  induction hdirect generalizing entry with
  | start => rfl
  | @up position hups _ ih =>
      have hbelow := h.climb (fun segment hmem => hups segment (List.mem_reverse.mp hmem)) hlocation
      rw [List.reverse_cons, List.foldlM_append, ih hbelow, List.foldl_append]
      change List.foldlM fs.step _ [".."] = _
      rw [List.foldlM_cons, step_of_directory hbelow]
      rfl
  | @down _ name position hname _ _ ih =>
      rw [List.reverse_cons, List.foldl_append, List.foldl_cons, advance_name hname,
        List.foldl_nil] at hentry ⊢
      have hbelow := h.above hentry
      rw [List.dropLast_concat] at hbelow
      rw [List.foldlM_append, ih hbelow]
      change List.foldlM fs.step _ [name] = _
      rw [List.foldlM_cons, step_of_directory hbelow, advance_name hname]
      rfl

private theorem locate_clean (h : fs.WellFormed) {path : String} {entry : Entry}
    (hentry : fs.entry? (fs.place path) = some entry) :
    fs.locate (clean path) = .ok (fs.place path) := by
  have hdirect := direct_position path
  have hstart := h.start_directory path
  rw [place_eq] at hentry ⊢
  have hfollow := h.follow hdirect hstart hentry
  -- A segment that stays is followed in any directory.
  have hstay : ∀ segment rest, segment = "" ∨ segment = "." →
      List.foldlM fs.step (fs.start path) (segment :: rest) =
        List.foldlM fs.step (fs.start path) rest := by
    intro segment rest hsegment
    rw [List.foldlM_cons, step_of_directory hstart, advance_stay hsegment]
    rfl
  have hroot : (if isRooted (clean path) = true then [] else fs.here) = fs.start path := by
    rw [clean_eq, isRooted_ofSteps hdirect]
    rfl
  have hclean : clean path ≠ "" := ofSteps_ne_empty _ _
  rw [locate, if_neg hclean, hroot, ← hfollow, clean_eq]
  by_cases hne : position path = []
  · rw [hne]
    cases isRooted path with
    | true => exact (hstay "" [""] (.inl rfl)).trans (hstay "" [] (.inl rfl))
    | false => exact hstay "." [] (.inr rfl)
  · have hsegments : segments (String.intercalate "/" (position path).reverse) =
        (position path).reverse :=
      segments_intercalate (by simpa using hne)
        fun name hname => (hdirect.not_mem (List.mem_reverse.mp hname)).2
    rw [ofSteps_of_ne_nil hdirect hne]
    cases isRooted path with
    | true =>
        have hslash := segments_slash "" (String.intercalate "/" (position path).reverse)
        rw [String.empty_append] at hslash
        rw [if_pos rfl, hslash, hsegments]
        exact hstay "" _ (.inl rfl)
    | false => rw [if_neg (by decide), String.empty_append, hsegments]

theorem find_clean (h : fs.WellFormed) {path : String} {entry : Entry}
    (hentry : fs.entry? (fs.place path) = some entry) :
    fs.find (clean path) = .ok (fs.place path, entry) := by
  simp only [find, h.locate_clean hentry, bind, Except.bind, hentry]
  rfl

end WellFormed

end SchemaCodec.FileSystem
