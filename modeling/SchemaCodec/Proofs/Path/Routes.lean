import SchemaCodec.Proofs.Path.Walking

namespace SchemaCodec.Path

/-! Ways that begin anywhere: what is left of segments when all detours are taken out, and where it
leads from a directory. -/

def way (parts : List String) : List String :=
  (parts.foldl (walk false) []).reverse

/-- A way to follow segments, on which going up undoes going down. -/
structure Follows (go : α → String → α) : Prop where
  stay : ∀ {segment}, segment = "" ∨ segment = "." → ∀ origin, go origin segment = origin
  back : ∀ {name}, IsName name → ∀ origin, go (go origin name) ".." = origin

theorem follows_walk (rooted : Bool) : Follows (walk rooted) where
  stay h origin := walk_stay h rooted origin
  back h origin := by rw [walk_name h, walk_back h.ne_dots]

section Follows

variable {go : α → String → α}

/-- Going up once for each name comes back to where the names began. -/
theorem Follows.back_names (h : Follows go) {names : List String}
    (hnames : ∀ name ∈ names, IsName name) (origin : α) :
    (names.map fun _ => "..").foldl go (names.reverse.foldl go origin) = origin := by
  induction names with
  | nil => rfl
  | cons name rest ih =>
      rw [List.forall_mem_cons] at hnames
      rw [List.map_cons, List.foldl_cons, List.reverse_cons, List.foldl_append, List.foldl_cons,
        List.foldl_nil, h.back hnames.1, ih hnames.2]

theorem Follows.walk (h : Follows go) {position : List String} (hdirect : Direct false position)
    (origin : α) (segment : String) :
    (walk false position segment).reverse.foldl go origin =
      go (position.reverse.foldl go origin) segment := by
  by_cases hstay : segment = "" ∨ segment = "."
  · rw [walk_stay hstay, h.stay hstay]
  · by_cases hup : segment = ".."
    · subst hup
      cases hdirect with
      | start => rfl
      | up _ _ =>
          rw [walk_further, List.reverse_cons, List.foldl_append]
          rfl
      | down hname _ _ =>
          rw [walk_back hname.ne_dots, List.reverse_cons, List.foldl_append, List.foldl_cons,
            List.foldl_nil, h.back hname]
    · obtain ⟨hempty, hdot⟩ := not_or.mp hstay
      rw [walk_name ⟨hempty, hdot, hup⟩, List.reverse_cons, List.foldl_append]
      rfl

theorem Follows.foldl (h : Follows go) {position parts : List String}
    (hdirect : Direct false position) (hslash : ∀ part ∈ parts, '/' ∉ part.toList) (origin : α) :
    (parts.foldl (Path.walk false) position).reverse.foldl go origin =
      parts.foldl go (position.reverse.foldl go origin) := by
  induction parts generalizing position with
  | nil => rfl
  | cons part rest ih =>
      rw [List.foldl_cons, List.foldl_cons, ← h.walk hdirect]
      exact ih (hdirect.walk (hslash part (List.mem_cons_self ..)))
        fun other hother => hslash other (List.mem_cons_of_mem _ hother)

/-- Detours do not matter, wherever the segments are followed from. -/
theorem Follows.way (h : Follows go) {parts : List String}
    (hslash : ∀ part ∈ parts, '/' ∉ part.toList) (origin : α) :
    (way parts).foldl go origin = parts.foldl go origin :=
  h.foldl .start hslash origin

end Follows

/-! Following -/

/-- One segment further: two dots go up, a dot or an empty segment stays, any other goes down. -/
def advance (location : List String) (segment : String) : List String :=
  if segment = "" ∨ segment = "." then location
  else if segment = ".." then location.dropLast
  else location ++ [segment]

theorem advance_stay {segment : String} (h : segment = "" ∨ segment = ".")
    (location : List String) : advance location segment = location :=
  if_pos h

theorem advance_up (location : List String) : advance location ".." = location.dropLast := rfl

theorem advance_name {segment : String} (h : IsName segment) (location : List String) :
    advance location segment = location ++ [segment] :=
  (if_neg (not_or.mpr ⟨h.ne_empty, h.ne_dot⟩)).trans (if_neg h.ne_dots)

theorem advance_names {names : List String} (h : ∀ name ∈ names, IsName name)
    (location : List String) : names.foldl advance location = location ++ names := by
  induction names generalizing location with
  | nil => simp
  | cons name rest ih =>
      rw [List.foldl_cons, advance_name (h name (List.mem_cons_self ..)),
        ih fun other hother => h other (List.mem_cons_of_mem _ hother)]
      simp

theorem follows_advance : Follows advance where
  stay h origin := advance_stay h origin
  back h origin := by rw [advance_name h, advance_up, List.dropLast_concat]

/-- A position leads where the walk to it leads. -/
theorem advance_walk {rooted : Bool} {position origin : List String}
    (h : Direct rooted position) (horigin : rooted = true → origin = []) (segment : String) :
    (walk rooted position segment).reverse.foldl advance origin =
      advance (position.reverse.foldl advance origin) segment := by
  by_cases hstay : segment = "" ∨ segment = "."
  · rw [walk_stay hstay, advance_stay hstay]
  · by_cases hup : segment = ".."
    · subst hup
      cases h with
      | start =>
          cases rooted with
          | true => rw [horigin rfl]; rfl
          | false => rfl
      | up _ _ =>
          rw [walk_further, List.reverse_cons, List.foldl_append]
          rfl
      | down hname _ _ =>
          rw [walk_back hname.ne_dots, List.reverse_cons, List.foldl_append, List.foldl_cons,
            advance_name hname, List.foldl_nil, advance_up, List.dropLast_concat]
    · obtain ⟨hempty, hdot⟩ := not_or.mp hstay
      rw [walk_name ⟨hempty, hdot, hup⟩, List.reverse_cons, List.foldl_append]
      rfl

theorem advance_foldl {rooted : Bool} {position origin parts : List String}
    (h : Direct rooted position) (horigin : rooted = true → origin = [])
    (hslash : ∀ part ∈ parts, '/' ∉ part.toList) :
    (parts.foldl (walk rooted) position).reverse.foldl advance origin =
      parts.foldl advance (position.reverse.foldl advance origin) := by
  induction parts generalizing position with
  | nil => rfl
  | cons part rest ih =>
      rw [List.foldl_cons, List.foldl_cons, ← advance_walk h horigin]
      exact ih (h.walk (hslash part (List.mem_cons_self ..)))
        fun other hother => hslash other (List.mem_cons_of_mem _ hother)

/-! Up and down -/

private theorem Direct.exists_names {rooted : Bool} {position : List String}
    (h : Direct rooted position) :
    ∃ names ups, position = names ++ List.replicate ups ".." ∧ (∀ name ∈ names, IsName name) ∧
      (rooted = true → ups = 0) := by
  induction h with
  | start => exact ⟨[], 0, rfl, by simp, fun _ => rfl⟩
  | @up position hall _ _ =>
      refine ⟨[], position.length + 1, ?_, by simp, by simp⟩
      rw [List.nil_append, List.replicate_succ, ← List.eq_replicate_of_mem hall]
  | @down _ name position hname _ _ ih =>
      obtain ⟨names, ups, rfl, hnames, hups⟩ := ih
      refine ⟨name :: names, ups, rfl, ?_, hups⟩
      rw [List.forall_mem_cons]
      exact ⟨hname, hnames⟩

theorem exists_way {parts : List String} (hslash : ∀ part ∈ parts, '/' ∉ part.toList) :
    ∃ ups names, way parts = List.replicate ups ".." ++ names ∧ ∀ name ∈ names, IsName name := by
  have hdirect : Direct false (parts.foldl (walk false) []) := Direct.start.foldl hslash
  obtain ⟨names, ups, hposition, hnames, -⟩ := hdirect.exists_names
  refine ⟨ups, names.reverse, ?_, fun name hname => hnames name (List.mem_reverse.mp hname)⟩
  rw [way, hposition, List.reverse_append, List.reverse_replicate]

def climb (rooted : Bool) (ups : Nat) (position : List String) : List String :=
  (List.replicate ups "..").foldl (walk rooted) position

theorem climb_add (rooted : Bool) (first second : Nat) (position : List String) :
    climb rooted (first + second) position = climb rooted second (climb rooted first position) := by
  rw [climb, ← List.replicate_append_replicate, List.foldl_append]
  rfl

theorem climb_names {names : List String} (h : ∀ name ∈ names, IsName name) (rooted : Bool)
    (position : List String) : climb rooted names.length (names ++ position) = position := by
  rw [climb, ← List.map_const']
  exact walk_up h rooted position

theorem climb_root (ups : Nat) : climb true ups [] = [] := by
  induction ups with
  | zero => rfl
  | succ ups ih => exact ih

theorem climb_dots (ups above : Nat) :
    climb false ups (List.replicate above "..") = List.replicate (above + ups) ".." := by
  induction ups generalizing above with
  | zero => rfl
  | succ ups ih =>
      have hstep : walk false (List.replicate above "..") ".." =
          List.replicate (above + 1) ".." := by
        cases above with
        | zero => rfl
        | succ above => rfl
      rw [climb, List.replicate_succ, List.foldl_cons, hstep]
      change climb false ups _ = _
      rw [ih, Nat.add_right_comm, Nat.add_assoc]

/-- Going up leaves as many directories, or all there are: behind them there is nothing above the
root, and ways up from anywhere else. -/
theorem climb_cases {rooted : Bool} {position : List String} (h : Direct rooted position)
    (ups : Nat) :
    (∃ left above, position = left ++ above ∧ (∀ name ∈ left, IsName name) ∧ left.length = ups ∧
        climb rooted ups position = above) ∨
      (rooted = true ∧ (∀ name ∈ position, IsName name) ∧ position.length < ups ∧
        climb rooted ups position = []) ∨
      ∃ left dots further, position = left ++ List.replicate dots ".." ∧
        (∀ name ∈ left, IsName name) ∧
        climb rooted ups position = List.replicate (dots + (further + 1)) ".." := by
  obtain ⟨names, dots, rfl, hnames, hroot⟩ := h.exists_names
  by_cases hfew : ups ≤ names.length
  · have htaken : ∀ name ∈ names.take ups, IsName name :=
      fun name hname => hnames name (List.mem_of_mem_take hname)
    refine .inl ⟨names.take ups, names.drop ups ++ List.replicate dots "..", ?_, ?_, ?_, ?_⟩
    · rw [← List.append_assoc, List.take_append_drop]
    · exact htaken
    · exact List.length_take_of_le hfew
    · have hclimb := climb_names htaken rooted (names.drop ups ++ List.replicate dots "..")
      rw [← List.append_assoc, List.take_append_drop, List.length_take_of_le hfew] at hclimb
      exact hclimb
  · obtain ⟨further, rfl⟩ := Nat.exists_eq_add_of_lt (Nat.lt_of_not_le hfew)
    rw [Nat.add_assoc, climb_add, climb_names hnames]
    cases rooted with
    | true =>
        obtain rfl := hroot rfl
        refine .inr (.inl ⟨rfl, ?_, ?_, climb_root _⟩)
        · simpa using hnames
        · simp
    | false => exact .inr (.inr ⟨names, dots, further, rfl, hnames, climb_dots _ _⟩)

/-! Below a directory -/

/-- A path leads to a place strictly below a directory: behind the segments of the directory it has
others, and none of them goes up. -/
def LiesBelow (directory path : String) : Prop :=
  isRooted path = isRooted directory ∧
    ∃ names, names ≠ [] ∧ ".." ∉ names ∧ steps path = steps directory ++ names

/-- A way comes back into a directory that it has left upwards, through the same directories, and goes
on below it. From the root it can go up any further without leaving anything. -/
def ComesBack (rooted : Bool) (directory route : List String) : Prop :=
  ∃ above left further ups, directory = above ++ left ∧ ".." ∉ left ∧
    route = List.replicate ups ".." ++ (left ++ further) ∧ further ≠ [] ∧ ".." ∉ further ∧
    (ups = left.length ∨ rooted = true ∧ above = [] ∧ left.length ≤ ups)

theorem not_dots_mem {names : List String} (h : ∀ name ∈ names, IsName name) : ".." ∉ names :=
  fun hmem => (h ".." hmem).ne_dots rfl

theorem dots_append_inj {first second : Nat} {names others : List String} (hnames : ".." ∉ names)
    (hothers : ".." ∉ others)
    (h : List.replicate first ".." ++ names = List.replicate second ".." ++ others) :
    first = second ∧ names = others := by
  induction first generalizing second with
  | zero =>
      cases second with
      | zero => exact ⟨rfl, h⟩
      | succ second =>
          rw [List.replicate_zero, List.nil_append] at h
          exact absurd (h ▸ List.mem_cons_self ..) hnames
  | succ first ih =>
      cases second with
      | zero =>
          rw [List.replicate_zero, List.nil_append] at h
          exact absurd (h ▸ List.mem_cons_self ..) hothers
      | succ second =>
          obtain ⟨hcount, hrest⟩ := ih (List.cons.inj h).2
          exact ⟨congrArg Nat.succ hcount, hrest⟩

private theorem comesBack_iff {rooted : Bool} {position names : List String} {ups : Nat}
    (h : Direct rooted position) (hnames : ∀ name ∈ names, IsName name) :
    ComesBack rooted position.reverse (List.replicate ups ".." ++ names) ↔
      ∃ further, further ≠ [] ∧ ".." ∉ further ∧
        (climb rooted ups position).reverse ++ names = position.reverse ++ further := by
  constructor
  · rintro ⟨above, left, further, count, hdirectory, hleft, hroute, hne, hfurther, hback⟩
    obtain ⟨rfl, rfl⟩ := dots_append_inj (not_dots_mem hnames)
      (mt List.mem_append.mp (not_or.mpr ⟨hleft, hfurther⟩)) hroute
    have hposition : position = left.reverse ++ above.reverse := by
      rw [← List.reverse_append, ← hdirectory, List.reverse_reverse]
    have hclimb : climb rooted left.length position = above.reverse := by
      rw [hposition, ← List.length_reverse]
      exact climb_names (fun name hname =>
        hnames name (List.mem_append_left _ (List.mem_reverse.mp hname))) rooted _
    refine ⟨further, hne, hfurther, ?_⟩
    rcases hback with rfl | ⟨rfl, rfl, hle⟩
    · rw [hclimb, hdirectory, List.reverse_reverse, List.append_assoc]
    · obtain ⟨more, rfl⟩ := Nat.exists_eq_add_of_le hle
      rw [climb_add, hclimb, List.reverse_nil, climb_root, hdirectory]
      simp
  · rintro ⟨further, hne, hfurther, hsteps⟩
    rcases climb_cases h ups with ⟨left, above, rfl, hleft, rfl, hclimb⟩ |
        ⟨rfl, hposition, hlong, hclimb⟩ | ⟨left, dots, more, rfl, hleft, hclimb⟩
    · rw [hclimb, List.reverse_append, List.append_assoc] at hsteps
      refine ⟨above.reverse, left.reverse, further, left.length, List.reverse_append, ?_, ?_, hne,
        hfurther, .inl List.length_reverse.symm⟩
      · exact mt List.mem_reverse.mp (not_dots_mem hleft)
      · rw [List.append_cancel_left hsteps]
    · rw [hclimb] at hsteps
      refine ⟨[], position.reverse, further, ups, rfl, ?_, ?_, hne, hfurther, .inr ⟨rfl, rfl, ?_⟩⟩
      · exact mt List.mem_reverse.mp (not_dots_mem hposition)
      · exact congrArg _ hsteps
      · rw [List.length_reverse]
        exact Nat.le_of_lt hlong
    · -- The ways up that are left over would have to be names.
      rw [hclimb, List.reverse_append, List.reverse_replicate, List.reverse_replicate,
        ← List.replicate_append_replicate, List.append_assoc, List.append_assoc] at hsteps
      have hmem : ".." ∈ left.reverse ++ further :=
        List.append_cancel_left hsteps ▸ List.mem_cons_self ..
      rcases List.mem_append.mp hmem with hdots | hdots
      · exact absurd (List.mem_reverse.mp hdots) (not_dots_mem hleft)
      · exact absurd hdots hfurther

theorem comesBack_of_straight {rooted : Bool} {directory route : List String} (hne : route ≠ [])
    (h : ".." ∉ route) : ComesBack rooted directory route :=
  ⟨directory, [], route, 0, (List.append_nil directory).symm, List.not_mem_nil, rfl, hne, h,
    .inl rfl⟩

/-- A directory without segments cannot be left and come back to. -/
theorem not_dots_mem_of_comesBack {route : List String} (h : ComesBack false [] route) :
    ".." ∉ route := by
  obtain ⟨above, left, further, ups, hdirectory, -, rfl, -, hfurther, hups | ⟨hrooted, -⟩⟩ := h
  · obtain ⟨-, rfl⟩ := List.append_eq_nil_iff.mp hdirectory.symm
    subst hups
    exact hfurther
  · cases hrooted

theorem clean_liesBelow_iff {directory : String} (hne : directory ≠ "") (tail : String) :
    LiesBelow directory (clean (directory ++ "/" ++ tail)) ↔
      ComesBack (isRooted directory) (steps directory) (way (segments tail)) := by
  have hslash : ∀ part ∈ segments tail, '/' ∉ part.toList :=
    fun _ hpart => not_mem_of_mem_segments hpart
  have hdirect := direct_position directory
  have hwhole : Direct (isRooted directory)
      ((segments tail).foldl (walk (isRooted directory)) (position directory)) :=
    hdirect.foldl hslash
  obtain ⟨ups, names, hway, hnames⟩ := exists_way hslash
  have hsteps : steps (clean (directory ++ "/" ++ tail)) =
      (climb (isRooted directory) ups (position directory)).reverse ++ names := by
    change (position _).reverse = _
    rw [clean_slash hne, position_ofSteps hwhole, ← (follows_walk _).way hslash, hway,
      List.foldl_append, walk_names hnames, List.reverse_append, List.reverse_reverse]
    rfl
  have hrooted : isRooted (clean (directory ++ "/" ++ tail)) = isRooted directory := by
    rw [clean_slash hne, isRooted_ofSteps hwhole]
  rw [LiesBelow, hrooted, hsteps, hway]
  refine Iff.trans ?_ (comesBack_iff hdirect hnames).symm
  exact and_iff_right rfl

end SchemaCodec.Path
