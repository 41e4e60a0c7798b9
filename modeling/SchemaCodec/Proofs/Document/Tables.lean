import Mathlib.Data.List.Nodup
import SchemaCodec.Document.Table
import SchemaCodec.Proofs.Codec.Distinct

namespace SchemaCodec.Document

/-! Tables whose index has the place of every key. What is found through such an index is what
stands in the list of members. -/

section

variable {α : Type} {members : List (String × α)} {key other : String} {value : α}

theorem lookup_cons_of_ne (h : key ≠ other) :
    ((other, value) :: members).lookup key = members.lookup key := by
  rw [List.lookup_cons, beq_false_of_ne h]

theorem lookup_eq_none_iff : members.lookup key = none ↔ key ∉ members.map Prod.fst := by
  rw [List.lookup_eq_none_iff]
  constructor
  · intro h hmem
    obtain ⟨member, hmember, rfl⟩ := List.mem_map.mp hmem
    simpa using h member hmember
  · intro h member hmember
    rw [bne_iff_ne]
    rintro rfl
    exact h (List.mem_map_of_mem hmember)

theorem lookup_eq_some_iff_mem (hnodup : (members.map Prod.fst).Nodup) :
    members.lookup key = some value ↔ (key, value) ∈ members := by
  constructor
  · intro h
    obtain ⟨before, after, hmembers, -⟩ := List.lookup_eq_some_iff.mp h
    rw [hmembers]
    exact List.mem_append_right _ List.mem_cons_self
  · intro h
    induction members with
    | nil => cases h
    | cons member rest ih =>
        rw [List.map_cons, List.nodup_cons] at hnodup
        cases h with
        | head => exact List.lookup_cons_self
        | tail _ hrest =>
            have hne : key ≠ member.1 := by
              rintro rfl
              exact hnodup.1 (List.mem_map.mpr ⟨_, hrest, rfl⟩)
            rw [lookup_cons_of_ne hne, ih hnodup.2 hrest]

end

/-- The index has the place of every key. -/
def Locates (index : List (String × Nat)) (keys : List String) : Prop :=
  ∀ key place, index.lookup key = some place ↔ keys[place]? = some key

section

variable {index : List (String × Nat)} {keys : List String} {key : String}

theorem Locates.nodup (h : Locates index keys) : keys.Nodup := by
  rw [List.nodup_iff_getElem?_ne_getElem?]
  intro first second hlt hsecond heq
  have hkey : keys[second]? = some keys[second] := List.getElem?_eq_getElem hsecond
  have hfirst := (h _ _).mpr (heq.trans hkey)
  have hagain := (h _ _).mpr hkey
  rw [hfirst, Option.some_inj] at hagain
  omega

theorem Locates.lookup_eq_none_iff (h : Locates index keys) :
    index.lookup key = none ↔ key ∉ keys := by
  rw [List.mem_iff_getElem?, not_exists, Option.eq_none_iff_forall_ne_some]
  simp only [Ne, h key]

private theorem getElem?_append_singleton_eq_some {other : String} {place : Nat} :
    (keys ++ [key])[place]? = some other ↔
      keys[place]? = some other ∨ place = keys.length ∧ other = key := by
  rcases Nat.lt_trichotomy place keys.length with hlt | rfl | hgt
  · rw [List.getElem?_append_left hlt]
    simp [Nat.ne_of_lt hlt]
  · simp [eq_comm]
  · have hend : keys.length + 1 ≤ place := hgt
    rw [List.getElem?_eq_none (by simpa using hend), List.getElem?_eq_none (Nat.le_of_lt hgt)]
    simp [Nat.ne_of_gt hgt]

/-- A new key is put behind the others. -/
theorem Locates.append (h : Locates index keys) (hnew : index.lookup key = none) :
    Locates ((key, keys.length) :: index) (keys ++ [key]) := by
  intro other place
  rw [getElem?_append_singleton_eq_some, ← h other place]
  by_cases hother : other = key
  · rw [hother, List.lookup_cons_self, hnew, Option.some_inj]
    simp [eq_comm]
  · rw [lookup_cons_of_ne hother]
    simp [hother]

end

namespace Table

variable {α : Type} {table : Table α} {key other : String} {value : α}

def keys (table : Table α) : List String :=
  table.members.map Prod.fst

def Sound (table : Table α) : Prop :=
  Locates table.index table.keys

theorem sound_empty : (empty : Table α).Sound := by
  simp [Sound, Locates, keys, empty]

private theorem keys_push (table : Table α) (key : String) (value : α) :
    (table.push key value).keys = table.keys ++ [key] :=
  List.map_append

theorem place?_push_of_ne (h : other ≠ key) :
    (table.push key value).place? other = table.place? other :=
  lookup_cons_of_ne h

theorem Sound.nodup (h : table.Sound) : table.keys.Nodup :=
  Locates.nodup h

private theorem Sound.place?_eq_none_iff (h : table.Sound) :
    table.place? key = none ↔ key ∉ table.keys :=
  h.lookup_eq_none_iff

theorem Sound.push (h : table.Sound) (hnew : table.place? key = none) :
    (table.push key value).Sound := by
  have hlocates := Locates.append h hnew
  rw [keys, List.length_map] at hlocates
  rw [Sound, keys_push]
  exact hlocates

/-- The index leads where a search of the members leads. -/
theorem Sound.get?_eq_lookup (h : table.Sound) (key : String) :
    table.get? key = table.members.lookup key := by
  rw [get?]
  cases hplace : table.place? key with
  | none =>
      rw [Document.lookup_eq_none_iff.mpr (h.place?_eq_none_iff.mp hplace)]
      rfl
  | some place =>
      have hkey := (h key place).mp hplace
      rw [keys, List.getElem?_map, Option.map_eq_some_iff] at hkey
      obtain ⟨⟨_, found⟩, hmember, rfl⟩ := hkey
      have hmem := List.mem_of_getElem? hmember
      rw [(lookup_eq_some_iff_mem h.nodup).mpr hmem]
      exact congrArg (Option.map Prod.snd) hmember

theorem Sound.get?_eq_some_iff (h : table.Sound) :
    table.get? key = some value ↔ (key, value) ∈ table.members := by
  rw [h.get?_eq_lookup, lookup_eq_some_iff_mem h.nodup]

theorem Sound.get?_eq_none_iff (h : table.Sound) : table.get? key = none ↔ key ∉ table.keys := by
  rw [h.get?_eq_lookup]
  exact Document.lookup_eq_none_iff

/-! Setting one value -/

private theorem put_of_place {place : Nat} (h : table.place? key = some place) :
    table.put key value = ⟨table.members.set place (key, value), table.index⟩ := by
  rw [put, h]

private theorem put_of_none (h : table.place? key = none) :
    table.put key value = table.push key value := by
  rw [put, h]

private theorem Sound.keys_put_of_place (h : table.Sound) {place : Nat}
    (hplace : table.place? key = some place) : (table.put key value).keys = table.keys := by
  obtain ⟨hlt, hkey⟩ := List.getElem?_eq_some_iff.mp ((h key place).mp hplace)
  rw [put_of_place hplace]
  change (table.members.set place (key, value)).map Prod.fst = table.keys
  rw [List.map_set, ← hkey]
  exact List.set_getElem_self hlt

private theorem Sound.keys_put (h : table.Sound) (key : String) (value : α) :
    (table.put key value).keys = Codec.addNew id table.keys key := by
  rw [Codec.addNew]
  cases hplace : table.place? key with
  | none =>
      have hnew := h.place?_eq_none_iff.mp hplace
      rw [put_of_none hplace, keys_push, if_neg (by simpa using hnew)]
  | some place =>
      have hknown : key ∈ table.keys := List.mem_of_getElem? ((h key place).mp hplace)
      rw [h.keys_put_of_place hplace, if_pos (by simpa using hknown)]

theorem Sound.put (h : table.Sound) (key : String) (value : α) : (table.put key value).Sound := by
  cases hplace : table.place? key with
  | none =>
      rw [put_of_none hplace]
      exact h.push hplace
  | some place =>
      rw [Sound, h.keys_put_of_place hplace, put_of_place hplace]
      exact h

private theorem Sound.get?_push (h : table.Sound) (hnew : table.place? key = none) :
    (table.push key value).get? other = if other = key then some value else table.get? other := by
  rw [(h.push hnew).get?_eq_lookup, h.get?_eq_lookup]
  change (table.members ++ [(key, value)]).lookup other = _
  rw [List.lookup_append]
  by_cases hother : other = key
  · rw [if_pos hother, hother, Document.lookup_eq_none_iff.mpr (h.place?_eq_none_iff.mp hnew),
      List.lookup_cons_self]
    rfl
  · rw [if_neg hother, lookup_cons_of_ne hother]
    exact Option.or_none

private theorem Sound.get?_put (h : table.Sound) :
    (table.put key value).get? other = if other = key then some value else table.get? other := by
  cases hplace : table.place? key with
  | none => rw [put_of_none hplace, h.get?_push hplace]
  | some place =>
      obtain ⟨hlt, hkey⟩ := List.getElem?_eq_some_iff.mp ((h key place).mp hplace)
      rw [keys, List.length_map] at hlt
      rw [put_of_place hplace]
      by_cases hother : other = key
      · rw [if_pos hother, hother]
        change (table.place? key).bind _ = _
        rw [hplace]
        change ((table.members.set place (key, value))[place]?).map Prod.snd = _
        rw [List.getElem?_set_self hlt]
        rfl
      · -- Another key has another place, where nothing is set.
        rw [if_neg hother]
        change (table.place? other).bind _ = (table.place? other).bind _
        cases hfound : table.place? other with
        | none => rfl
        | some found =>
            have hne : place ≠ found := by
              rintro rfl
              have hboth := ((h other place).mp hfound).symm.trans ((h key place).mp hplace)
              exact hother (Option.some.inj hboth)
            change ((table.members.set place (key, value))[found]?).map Prod.snd = _
            rw [List.getElem?_set_ne hne]
            rfl

/-! All members of a list -/

private theorem ofMembers_append_singleton (members : List (String × α)) (key : String)
    (value : α) :
    ofMembers (members ++ [(key, value)]) = (ofMembers members).put key value :=
  List.foldl_append

theorem sound_ofMembers (members : List (String × α)) : (ofMembers members).Sound := by
  induction members using List.reverseRecOn with
  | nil => exact sound_empty
  | append_singleton members member ih =>
      rw [ofMembers_append_singleton]
      exact ih.put member.1 member.2

private theorem keys_ofMembers (members : List (String × α)) :
    (ofMembers members).keys = Codec.distinctBy id (members.map Prod.fst) := by
  induction members using List.reverseRecOn with
  | nil => rfl
  | append_singleton members member ih =>
      rw [ofMembers_append_singleton, (sound_ofMembers members).keys_put, ih, List.map_append,
        Codec.distinctBy, Codec.distinctBy, List.foldl_append]
      rfl

theorem firstOccurrences_ofMembers (members : List (String × α)) :
    Codec.FirstOccurrences (members.map Prod.fst) (ofMembers members).keys := by
  rw [keys_ofMembers]
  exact Codec.firstOccurrences_distinctBy _

private theorem get?_ofMembers (members : List (String × α)) (key : String) :
    (ofMembers members).get? key = members.reverse.lookup key := by
  induction members using List.reverseRecOn with
  | nil => rfl
  | append_singleton members member ih =>
      obtain ⟨last, value⟩ := member
      rw [ofMembers_append_singleton, (sound_ofMembers members).get?_put, ih, List.reverse_append,
        List.reverse_singleton, List.singleton_append]
      by_cases h : key = last
      · rw [if_pos h, h, List.lookup_cons_self]
      · rw [if_neg h, lookup_cons_of_ne h]

/-- The value is that of the last member under the key. -/
def IsLast (members : List (String × α)) (key : String) (value : α) : Prop :=
  ∃ before after, members = before ++ (key, value) :: after ∧ key ∉ after.map Prod.fst

theorem get?_ofMembers_eq_some_iff {members : List (String × α)} :
    (ofMembers members).get? key = some value ↔ IsLast members key value := by
  rw [get?_ofMembers, List.lookup_eq_some_iff]
  constructor
  · rintro ⟨after, before, hmembers, hafter⟩
    refine ⟨before.reverse, after.reverse, ?_, ?_⟩
    · rw [List.reverse_eq_iff.mp hmembers, List.reverse_append, List.reverse_cons,
        List.append_assoc, List.singleton_append]
    · rw [List.map_reverse, List.mem_reverse, ← Document.lookup_eq_none_iff,
        List.lookup_eq_none_iff]
      exact hafter
  · rintro ⟨before, after, rfl, hafter⟩
    refine ⟨after.reverse, before.reverse, ?_, ?_⟩
    · rw [List.reverse_append, List.reverse_cons, List.append_assoc, List.singleton_append]
    · rw [← List.lookup_eq_none_iff, Document.lookup_eq_none_iff, List.map_reverse,
        List.mem_reverse]
      exact hafter

theorem get?_ofMembers_eq_none_iff {members : List (String × α)} :
    (ofMembers members).get? key = none ↔ key ∉ members.map Prod.fst := by
  rw [get?_ofMembers, Document.lookup_eq_none_iff, List.map_reverse, List.mem_reverse]

/-- Members whose keys are distinct stay as they are. -/
theorem members_ofMembers {members : List (String × α)} (h : (members.map Prod.fst).Nodup) :
    (ofMembers members).members = members := by
  induction members using List.reverseRecOn with
  | nil => rfl
  | append_singleton members member ih =>
      obtain ⟨key, value⟩ := member
      rw [List.map_append, List.nodup_append_comm, List.map_singleton, List.singleton_append,
        List.nodup_cons] at h
      have hknown := ih h.2
      have hnew : (ofMembers members).place? key = none := by
        rw [(sound_ofMembers members).place?_eq_none_iff, keys, hknown]
        exact h.1
      rw [ofMembers_append_singleton, put_of_none hnew]
      exact congrArg (· ++ [(key, value)]) hknown

theorem mem_of_mem_ofMembers {members : List (String × α)} {member : String × α}
    (h : member ∈ (ofMembers members).members) : member ∈ members := by
  obtain ⟨key, value⟩ := member
  obtain ⟨before, after, rfl, -⟩ :=
    get?_ofMembers_eq_some_iff.mp ((sound_ofMembers members).get?_eq_some_iff.mpr h)
  exact List.mem_append_right _ List.mem_cons_self

/-! Members that are left when keys are taken out -/

theorem Sound.members_without (h : table.Sound) (dropped : List String) :
    (table.without dropped).members =
      table.members.filter fun member => !dropped.contains member.1 :=
  members_ofMembers (h.nodup.sublist (List.filter_sublist.map Prod.fst))

theorem sound_without (table : Table α) (dropped : List String) : (table.without dropped).Sound :=
  sound_ofMembers _

theorem Sound.mem_without (h : table.Sound) {dropped : List String} {member : String × α} :
    member ∈ (table.without dropped).members ↔
      member ∈ table.members ∧ member.1 ∉ dropped := by
  rw [h.members_without]
  simp

theorem Sound.get?_without (h : table.Sound) (dropped : List String) (key : String) :
    (table.without dropped).get? key = if key ∈ dropped then none else table.get? key := by
  ext value
  rw [(sound_without table dropped).get?_eq_some_iff, h.mem_without]
  split
  · next hdropped => simp [hdropped]
  · next hkept => simp [hkept, h.get?_eq_some_iff]

end Table

end SchemaCodec.Document
