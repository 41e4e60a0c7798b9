import SchemaCodec.Proofs.Path.Walking

namespace SchemaCodec.Path

/-! The way from one path to another -/

def named (parts : List String) : List String :=
  parts.filter (· ≠ "")

theorem named_append (before after : List String) :
    named (before ++ after) = named before ++ named after :=
  List.filter_append ..

theorem isName_of_mem_named {parts : List String}
    (h : ∀ part ∈ parts, part ≠ "." ∧ part ≠ "..") {name : String} (hname : name ∈ named parts) :
    IsName name := by
  obtain ⟨hmem, hne⟩ := List.mem_filter.mp hname
  exact ⟨of_decide_eq_true hne, (h name hmem).1, (h name hmem).2⟩

theorem walk_named {parts : List String} (h : ∀ part ∈ parts, part ≠ "." ∧ part ≠ "..")
    (rooted : Bool) (position : List String) :
    parts.foldl (walk rooted) position = (named parts).reverse ++ position := by
  rw [walk_filter]
  exact walk_names (fun _ hname => isName_of_mem_named h hname) rooted position

private theorem walk_intercalate {parts : List String} (h : ∀ part ∈ parts, '/' ∉ part.toList)
    (rooted : Bool) (position : List String) :
    (segments (String.intercalate "/" parts)).foldl (walk rooted) position =
      parts.foldl (walk rooted) position := by
  by_cases hne : parts = []
  · subst hne
    rfl
  · rw [segments_intercalate hne h]

/-- A cleaned path has the segments that lead to its place. The empty path becomes a dot. -/
theorem cleanSegments_eq (path : String) :
    cleanSegments path =
      if position path = [] ∧ isRooted path = false then ["."] else (position path).reverse := by
  have hdirect := direct_position path
  rw [cleanSegments, clean_eq]
  by_cases hnil : position path = []
  · rw [hnil]
    cases isRooted path <;> decide
  · have hnames : ∀ name ∈ (position path).reverse, name ≠ "" ∧ '/' ∉ name.toList :=
      fun name hname => hdirect.not_mem (List.mem_reverse.mp hname)
    have hsegments : segments (String.intercalate "/" (position path).reverse) =
        (position path).reverse :=
      segments_intercalate (by simpa using hnil) fun name hname => (hnames name hname).2
    have hfilter : (position path).reverse.filter (· ≠ "") = (position path).reverse :=
      List.filter_eq_self.mpr fun name hname => decide_eq_true (hnames name hname).1
    rw [if_neg (fun h => hnil h.1), ofSteps_of_ne_nil hdirect hnil]
    cases isRooted path with
    | true =>
        have hroot := segments_slash "" (String.intercalate "/" (position path).reverse)
        rw [String.empty_append] at hroot
        rw [if_pos rfl, hroot, hsegments, List.filter_append, hfilter]
        rfl
    | false => rw [if_neg (by decide), String.empty_append, hsegments, hfilter]

theorem position_of_straight {path : String}
    (h : ∀ segment ∈ segments path, segment ≠ "." ∧ segment ≠ "..") :
    position path = (named (segments path)).reverse := by
  rw [position, walk_named h, List.append_nil]

/-- A path that goes straight down loses only its empty segments. -/
theorem cleanSegments_of_straight {path : String}
    (h : ∀ segment ∈ segments path, segment ≠ "." ∧ segment ≠ "..")
    (hne : named (segments path) ≠ []) : cleanSegments path = named (segments path) := by
  have hplace := position_of_straight h
  have hsome : position path ≠ [] := by
    rw [hplace]
    simpa using hne
  rw [cleanSegments_eq, if_neg (fun hnil => hsome hnil.1), hplace, List.reverse_reverse]

private theorem dropCommon_append (common up down : List String) :
    dropCommon (common ++ up) (common ++ down) = dropCommon up down := by
  induction common with
  | nil => rfl
  | cons first rest ih =>
      rw [List.cons_append, List.cons_append, dropCommon, if_pos rfl, ih]

theorem exists_common (up down : List String) :
    ∃ common, up = common ++ (dropCommon up down).1 ∧ down = common ++ (dropCommon up down).2 := by
  fun_induction dropCommon up down with
  | case1 up first down ih =>
      obtain ⟨common, hup, hdown⟩ := ih
      exact ⟨first :: common, congrArg _ hup, congrArg _ hdown⟩
  | case2 => exact ⟨[], rfl, rfl⟩
  | case3 => exact ⟨[], rfl, rfl⟩

theorem not_mem_of_mem_way (up : List String) {down : List String}
    (h : ∀ part ∈ down, '/' ∉ part.toList) :
    ∀ part ∈ (dropCommon up down).1.map (fun _ => "..") ++ (dropCommon up down).2,
      '/' ∉ part.toList := by
  obtain ⟨common, -, hdown⟩ := exists_common up down
  intro part hpart
  rcases List.mem_append.mp hpart with hback | hforward
  · obtain ⟨_, _, rfl⟩ := List.mem_map.mp hback
    decide
  · apply h
    rw [hdown]
    exact List.mem_append_right _ hforward

theorem not_mem_of_mem_cleanSegments {path segment : String} (h : segment ∈ cleanSegments path) :
    '/' ∉ segment.toList :=
  not_mem_of_mem_segments (List.mem_filter.mp h).1

/-- Walking the way from a directory to a target leads there, from wherever the two begin. -/
theorem walk_relative {directory target : String} {above up down : List String}
    (hdirectory : cleanSegments directory = above ++ up)
    (htarget : cleanSegments target = above ++ down)
    (hup : ∀ name ∈ up, IsName name) (hdown : ∀ name ∈ down, IsName name)
    (rooted : Bool) (position : List String) :
    (segments (relative directory target)).foldl (walk rooted) (up.reverse ++ position) =
      down.reverse ++ position := by
  obtain ⟨common, hcommonUp, hcommonDown⟩ := exists_common up down
  have hslash := not_mem_of_mem_way up fun part (hpart : part ∈ down) =>
    not_mem_of_mem_cleanSegments (htarget ▸ List.mem_append_right above hpart)
  have hback : (dropCommon up down).1.map (fun _ => "..") =
      (dropCommon up down).1.reverse.map fun _ => ".." := by
    rw [List.map_const', List.map_const', List.length_reverse]
  rw [relative, hdirectory, htarget, dropCommon_append]
  generalize dropCommon up down = rest at *
  obtain ⟨back, forward⟩ := rest
  simp only at hcommonUp hcommonDown hslash hback ⊢
  subst hcommonUp hcommonDown
  rw [walk_intercalate hslash, List.foldl_append, hback, List.reverse_append, List.append_assoc,
    walk_up, walk_names]
  · simp
  · exact fun name hname => hdown name (List.mem_append_right _ hname)
  · exact fun name hname => hup name (List.mem_append_right _ (List.mem_reverse.mp hname))

end SchemaCodec.Path
