import Mathlib.Data.List.Nodup
import SchemaCodec.Proofs.Document.Nesting

namespace SchemaCodec.Document

/-! Keys that an object has twice, and which of them comes first in a text. -/

/-- Some object of the document has two members under one key. -/
inductive RepeatsKey : Document → Prop where
  | here {members : List (String × Document)} :
      ¬ (members.map Prod.fst).Nodup → RepeatsKey (.object members)
  | item {items : List Document} {item : Document} :
      item ∈ items → RepeatsKey item → RepeatsKey (.array items)
  | member {members : List (String × Document)} {member : String × Document} :
      member ∈ members → RepeatsKey member.2 → RepeatsKey (.object members)

/-- The key of a member. The object it belongs to is the one that `place` counts out; `path` names
the same object by keys and indices. -/
structure Occurrence where
  place : List Nat
  path : Pointer
  key : String

namespace Occurrence

/-- Two occurrences at one site are the same key in the same object. -/
def site (occurrence : Occurrence) : List Nat × String :=
  (occurrence.place, occurrence.key)

/-- The first occurrence at a site that has been seen before. -/
def firstRepeat (seen : List (List Nat × String)) : List Occurrence → Option Occurrence
  | [] => none
  | occurrence :: rest =>
    if occurrence.site ∈ seen then some occurrence
    else firstRepeat (occurrence.site :: seen) rest

end Occurrence

mutual

/-- The keys of all objects in the order of the text, where a member's key stands before what its
value holds. -/
def occurrences (place : List Nat) (path : Pointer) : Document → List Occurrence
  | .array items => occurrencesInItems place path 0 items
  | .object members => occurrencesInMembers place path 0 members
  | _ => []

def occurrencesInItems (place : List Nat) (path : Pointer) (index : Nat) :
    List Document → List Occurrence
  | [] => []
  | item :: items =>
    item.occurrences (place ++ [index]) (path ++ [toString index]) ++
      occurrencesInItems place path (index + 1) items

def occurrencesInMembers (place : List Nat) (path : Pointer) (index : Nat) :
    List (String × Document) → List Occurrence
  | [] => []
  | (key, value) :: members =>
    ⟨place, path, key⟩ :: (value.occurrences (place ++ [index]) (path ++ [key]) ++
      occurrencesInMembers place path (index + 1) members)

end

mutual

/-- The first key to come a second time in its object, and where that object is. -/
def repeated? (path : Pointer) : Document → Option (String × Pointer)
  | .array items => repeatedInItems? path 0 items
  | .object members => repeatedInMembers? path [] members
  | _ => none

def repeatedInItems? (path : Pointer) (index : Nat) :
    List Document → Option (String × Pointer)
  | [] => none
  | item :: items =>
    (item.repeated? (path ++ [toString index])).or (repeatedInItems? path (index + 1) items)

def repeatedInMembers? (path : Pointer) (known : List String) :
    List (String × Document) → Option (String × Pointer)
  | [] => none
  | (key, value) :: members =>
    if key ∈ known then some (key, path)
    else (value.repeated? (path ++ [key])).or (repeatedInMembers? path (key :: known) members)

end

/-- Induction from the items and the values of a document to the document. -/
@[elab_as_elim]
theorem parts_induction {motive : Document → Prop}
    (scalar : ∀ d, d.isArray = false → d.isObject = false → motive d)
    (array : ∀ items, (∀ item ∈ items, motive item) → motive (.array items))
    (object : ∀ members : List (String × Document),
      (∀ member ∈ members, motive member.2) → motive (.object members))
    (d : Document) : motive d := by
  induction hdepth : d.depth using Nat.strongRecOn generalizing d with
  | _ depth ih =>
    subst depth
    cases d with
    | array items =>
      apply array
      intro item hitem
      exact ih _ (depth_lt_of_mem_items hitem) item rfl
    | object members =>
      apply object
      rintro ⟨key, value⟩ hmember
      exact ih _ (depth_lt_of_mem_members hmember) value rfl
    | _ => exact scalar _ rfl rfl

private theorem occurrences_scalar {d : Document} (harray : d.isArray = false)
    (hobject : d.isObject = false) (place : List Nat) (path : Pointer) :
    d.occurrences place path = [] := by
  cases d with
  | array items => cases harray
  | object members => cases hobject
  | _ => rfl

private theorem repeated?_scalar {d : Document} (harray : d.isArray = false)
    (hobject : d.isObject = false) (path : Pointer) : d.repeated? path = none := by
  cases d with
  | array items => cases harray
  | object members => cases hobject
  | _ => rfl

/-! The search finds the first key that comes again. -/

namespace Occurrence

variable {seen seen' : List (List Nat × String)} {list : List Occurrence}

private theorem firstRepeat_congr
    (hseen : ∀ occurrence ∈ list, occurrence.site ∈ seen ↔ occurrence.site ∈ seen') :
    firstRepeat seen list = firstRepeat seen' list := by
  induction list generalizing seen seen' with
  | nil => rfl
  | cons occurrence rest ih =>
    have hhead := hseen occurrence List.mem_cons_self
    have htail : ∀ other ∈ rest,
        other.site ∈ occurrence.site :: seen ↔ other.site ∈ occurrence.site :: seen' := by
      intro other hother
      rw [List.mem_cons, List.mem_cons, hseen other (.tail _ hother)]
    simp only [firstRepeat, hhead, ih htail]

private theorem firstRepeat_append (front back : List Occurrence) :
    firstRepeat seen (front ++ back) =
      (firstRepeat seen front).or (firstRepeat (seen ++ front.map site) back) := by
  induction front generalizing seen with
  | nil => simp only [List.nil_append, firstRepeat, Option.none_or, List.map_nil, List.append_nil]
  | cons occurrence front ih =>
    have hseen : firstRepeat (occurrence.site :: seen ++ front.map site) back =
        firstRepeat (seen ++ (occurrence :: front).map site) back := by
      apply firstRepeat_congr
      intro other _
      simp only [List.mem_append, List.mem_cons, List.map_cons]
      tauto
    simp only [List.cons_append, firstRepeat]
    split
    · rfl
    · rw [ih, ← hseen, List.cons_append]

/-- Sites that none of the occurrences is at make no difference. -/
theorem firstRepeat_append_left {other : List (List Nat × String)}
    (hother : ∀ occurrence ∈ list, occurrence.site ∉ other) :
    firstRepeat (seen ++ other) list = firstRepeat seen list := by
  apply firstRepeat_congr
  intro occurrence hmem
  simp only [List.mem_append, hother occurrence hmem, or_false]

/-- What the search finds splits the occurrences: none of those before it repeats another, and
it repeats one of them. -/
theorem exists_of_firstRepeat (earlier : List Occurrence) {again : Occurrence}
    (hearlier : (earlier.map site).Nodup)
    (hfirst : firstRepeat (earlier.map site).reverse list = some again) :
    ∃ before after, earlier ++ list = before ++ again :: after ∧ (before.map site).Nodup ∧
      again.site ∈ before.map site := by
  induction list generalizing earlier with
  | nil => cases hfirst
  | cons occurrence rest ih =>
    rw [firstRepeat] at hfirst
    split at hfirst
    case isTrue hmem =>
      cases hfirst
      exact ⟨earlier, rest, rfl, hearlier, List.mem_reverse.1 hmem⟩
    case isFalse hnew =>
      rw [List.mem_reverse] at hnew
      have hnodup : ((earlier ++ [occurrence]).map site).Nodup := by
        rw [List.map_append, List.nodup_append_comm, List.map_singleton, List.singleton_append,
          List.nodup_cons]
        exact ⟨hnew, hearlier⟩
      have hseen : ((earlier ++ [occurrence]).map site).reverse =
          occurrence.site :: (earlier.map site).reverse := by
        rw [List.map_append, List.reverse_append]
        rfl
      rw [← hseen] at hfirst
      obtain ⟨before, after, hsplit, hbefore, hagain⟩ := ih _ hnodup hfirst
      rw [List.append_assoc, List.singleton_append] at hsplit
      exact ⟨before, after, hsplit, hbefore, hagain⟩

end Occurrence

/-! Objects at different places have no site in common. -/

private theorem index_eq_of_prefix {place target : List Nat} {i j : Nat}
    (hi : place ++ [i] <+: target)
    (hj : place ++ [j] <+: target) : i = j := by
  have hle : (place ++ [i]).length ≤ (place ++ [j]).length := by simp
  have heq := (List.prefix_of_prefix_length_le hi hj hle).eq_of_length (by simp)
  exact List.singleton_inj.1 (List.append_cancel_left heq)

private theorem not_prefix_self (place : List Nat) (index : Nat) : ¬ place ++
    [index] <+: place := by
  intro hprefix
  have hle := hprefix.length_le
  rw [List.length_append, List.length_singleton] at hle
  omega

def Rooted (d : Document) : Prop :=
  ∀ place path, ∀ occurrence ∈ d.occurrences place path, place <+: occurrence.place

private theorem exists_prefix_of_mem_items {items : List Document}
    (hitems : ∀ item ∈ items, item.Rooted)
    {place : List Nat} {path : Pointer} {index : Nat} {occurrence : Occurrence}
    (hmem : occurrence ∈ occurrencesInItems place path index items) :
    ∃ j, index ≤ j ∧ place ++ [j] <+: occurrence.place := by
  induction items generalizing index with
  | nil => cases hmem
  | cons item items ih =>
    rcases List.mem_append.1 hmem with hhead | htail
    · exact ⟨index, Nat.le_refl _, hitems item List.mem_cons_self _ _ _ hhead⟩
    · obtain ⟨j, hj, hprefix⟩ := ih (fun item hitem => hitems item (.tail _ hitem)) htail
      exact ⟨j, Nat.le_of_succ_le hj, hprefix⟩

private theorem exists_prefix_of_mem_members {members : List (String × Document)}
    (hmembers : ∀ member ∈ members, member.2.Rooted)
    {place : List Nat} {path : Pointer} {index : Nat} {occurrence : Occurrence}
    (hmem : occurrence ∈ occurrencesInMembers place path index members) :
    occurrence.place = place ∨ ∃ j, index ≤ j ∧ place ++ [j] <+: occurrence.place := by
  induction members generalizing index with
  | nil => cases hmem
  | cons member members ih =>
    obtain ⟨key, value⟩ := member
    rcases List.mem_cons.1 hmem with rfl | hmem
    · exact .inl rfl
    rcases List.mem_append.1 hmem with hhead | htail
    · have hprefix := hmembers (key, value) List.mem_cons_self _ _ _ hhead
      exact .inr ⟨index, Nat.le_refl _, hprefix⟩
    · rcases ih (fun member hmember => hmembers member (.tail _ hmember)) htail with
        heq | ⟨j, hj, hprefix⟩
      · exact .inl heq
      · exact .inr ⟨j, Nat.le_of_succ_le hj, hprefix⟩

theorem rooted (d : Document) : d.Rooted := by
  induction d using parts_induction with
  | scalar d harray hobject =>
    intro place path occurrence hmem
    rw [occurrences_scalar harray hobject] at hmem
    cases hmem
  | array items ih =>
    intro place path occurrence hmem
    obtain ⟨j, -, hprefix⟩ := exists_prefix_of_mem_items ih hmem
    exact (List.prefix_append place [j]).trans hprefix
  | object members ih =>
    intro place path occurrence hmem
    rcases exists_prefix_of_mem_members ih hmem with heq | ⟨j, -, hprefix⟩
    · exact heq ▸ List.prefix_refl place
    · exact (List.prefix_append place [j]).trans hprefix

private theorem prefix_of_site_mem {d : Document} {place : List Nat} {path : Pointer}
    {occurrence : Occurrence}
    (hsite : occurrence.site ∈ (d.occurrences place path).map Occurrence.site) :
    place <+: occurrence.place := by
  obtain ⟨other, hother, heq⟩ := List.mem_map.1 hsite
  have hplace : other.place = occurrence.place := congrArg Prod.fst heq
  rw [← hplace]
  exact d.rooted place path other hother

/-! The walk down the document agrees with the search in the list of all its keys. -/

def Occurrence.reported (occurrence : Occurrence) : String × Pointer :=
  (occurrence.key, occurrence.path)

def Located (d : Document) : Prop :=
  ∀ place path, (Occurrence.firstRepeat [] (d.occurrences place path)).map Occurrence.reported =
    d.repeated? path

private theorem firstRepeat_items {items : List Document} (hitems : ∀ item ∈ items, item.Located)
    (place : List Nat) (path : Pointer) (index : Nat) :
    (Occurrence.firstRepeat [] (occurrencesInItems place path index items)).map
      Occurrence.reported = repeatedInItems? path index items := by
  induction items generalizing index with
  | nil => rfl
  | cons item items ih =>
    have happart : ∀ occurrence ∈ occurrencesInItems place path (index + 1) items,
        occurrence.site ∉
          (item.occurrences (place ++ [index]) (path ++ [toString index])).map Occurrence.site := by
      intro occurrence hmem hsite
      obtain ⟨j, hj, hprefix⟩ := exists_prefix_of_mem_items (fun item _ => item.rooted) hmem
      have := index_eq_of_prefix (prefix_of_site_mem hsite) hprefix
      omega
    rw [occurrencesInItems, Occurrence.firstRepeat_append,
      Occurrence.firstRepeat_append_left happart, Option.map_or,
      hitems item List.mem_cons_self, ih fun item hitem => hitems item (.tail _ hitem)]
    rfl

/-- Keys of the object itself are looked for among those known, and its values hold none of them. -/
theorem firstRepeat_members {members : List (String × Document)}
    (hmembers : ∀ member ∈ members, member.2.Located) (place : List Nat) (path : Pointer)
    (known : List String) (index : Nat) :
    (Occurrence.firstRepeat (known.map (place, ·))
        (occurrencesInMembers place path index members)).map Occurrence.reported =
      repeatedInMembers? path known members := by
  induction members generalizing known index with
  | nil => rfl
  | cons member members ih =>
    obtain ⟨key, value⟩ := member
    have hvalue : value.Located := hmembers (key, value) List.mem_cons_self
    have hknown : (place, key) ∈ known.map (place, ·) ↔ key ∈ known := by simp
    have hbelow : ∀ occurrence ∈ value.occurrences (place ++ [index]) (path ++ [key]),
        occurrence.site ∉ (key :: known).map (place, ·) := by
      intro occurrence hmem hsite
      obtain ⟨name, -, heq⟩ := List.mem_map.1 hsite
      have hplace : place = occurrence.place := congrArg Prod.fst heq
      have hroot := value.rooted _ _ occurrence hmem
      rw [← hplace] at hroot
      exact not_prefix_self place index hroot
    have hbeside : ∀ occurrence ∈ occurrencesInMembers place path (index + 1) members,
        occurrence.site ∉
          (value.occurrences (place ++ [index]) (path ++ [key])).map Occurrence.site := by
      intro occurrence hmem hsite
      have hroot := prefix_of_site_mem hsite
      rcases exists_prefix_of_mem_members (fun member _ => member.2.rooted) hmem with
        hplace | ⟨j, hj, hprefix⟩
      · rw [hplace] at hroot
        exact not_prefix_self place index hroot
      · have := index_eq_of_prefix hroot hprefix
        omega
    have hvalueFirst : Occurrence.firstRepeat ([] ++ (key :: known).map (place, ·)) _ = _ :=
      Occurrence.firstRepeat_append_left hbelow
    have hrest := ih (fun member hmember => hmembers member (.tail _ hmember)) (key :: known)
      (index + 1)
    rw [List.nil_append] at hvalueFirst
    rw [occurrencesInMembers, Occurrence.firstRepeat, repeatedInMembers?]
    simp only [Occurrence.site, hknown]
    split
    · rfl
    · rw [← List.map_cons (f := (place, ·)), Occurrence.firstRepeat_append,
        Occurrence.firstRepeat_append_left hbeside, Option.map_or, hvalueFirst, hrest, hvalue]

theorem located (d : Document) : d.Located := by
  induction d using parts_induction with
  | scalar d harray hobject =>
    intro place path
    rw [occurrences_scalar harray hobject, repeated?_scalar harray hobject]
    rfl
  | array items ih =>
    intro place path
    exact firstRepeat_items ih place path 0
  | object members ih =>
    intro place path
    exact firstRepeat_members ih place path [] 0

theorem exists_of_repeated? {d : Document} {key : String} {path : Pointer}
    (hrepeated : d.repeated? [] = some (key, path)) :
    ∃ before again after, d.occurrences [] [] = before ++ again :: after ∧
      (before.map Occurrence.site).Nodup ∧ again.site ∈ before.map Occurrence.site ∧
      again.key = key ∧ again.path = path := by
  rw [← located d []] at hrepeated
  obtain ⟨again, hfirst, hreported⟩ := Option.map_eq_some_iff.1 hrepeated
  obtain ⟨before, after, hsplit, hbefore, hagain⟩ :=
    Occurrence.exists_of_firstRepeat [] List.nodup_nil hfirst
  cases hreported
  exact ⟨before, again, after, hsplit, hbefore, hagain, rfl, rfl⟩

/-! The walk finds something exactly if some object has a key twice. -/

/-- The walk comes back empty from every place exactly if no object has a key twice. -/
def Searched (d : Document) : Prop :=
  ∀ path, d.repeated? path = none ↔ ¬ d.RepeatsKey

private theorem repeatedInItems?_eq_none_iff {items : List Document}
    (hitems : ∀ item ∈ items, item.Searched) {path : Pointer} {index : Nat} :
    repeatedInItems? path index items = none ↔ ∀ item ∈ items, ¬ item.RepeatsKey := by
  induction items generalizing index with
  | nil => simp [repeatedInItems?]
  | cons item items ih =>
    rw [repeatedInItems?, Option.or_eq_none_iff, hitems item List.mem_cons_self,
      ih fun item hitem => hitems item (.tail _ hitem), List.forall_mem_cons]

private theorem repeatedInMembers?_eq_none_iff {members : List (String × Document)}
    (hmembers : ∀ member ∈ members, member.2.Searched) {path : Pointer} {known : List String} :
    repeatedInMembers? path known members = none ↔
      (∀ key ∈ members.map Prod.fst, key ∉ known) ∧ (members.map Prod.fst).Nodup ∧
        ∀ member ∈ members, ¬ member.2.RepeatsKey := by
  induction members generalizing known with
  | nil => simp [repeatedInMembers?]
  | cons member members ih =>
    obtain ⟨key, value⟩ := member
    have hvalue := hmembers (key, value) List.mem_cons_self (path ++ [key])
    have htail : repeatedInMembers? path (key :: known) members = none ↔ _ :=
      ih fun member hmember => hmembers member (.tail _ hmember)
    rw [repeatedInMembers?]
    split
    case isTrue hknown => simp [hknown]
    case isFalse hnew =>
      rw [Option.or_eq_none_iff, hvalue, htail, List.map_cons, List.nodup_cons,
        List.forall_mem_cons, List.forall_mem_cons]
      constructor
      · rintro ⟨hvalue, hfree, hnodup, hrest⟩
        refine ⟨⟨hnew, ?_⟩, ⟨?_, hnodup⟩, hvalue, hrest⟩
        · exact fun name hname => fun hmem => hfree name hname (.tail _ hmem)
        · exact fun hmem => hfree key hmem List.mem_cons_self
      · rintro ⟨⟨-, hfree⟩, ⟨hkey, hnodup⟩, hvalue, hrest⟩
        refine ⟨hvalue, ?_, hnodup, hrest⟩
        intro name hname hmem
        rcases List.mem_cons.1 hmem with rfl | hmem
        · exact hkey hname
        · exact hfree name hname hmem

theorem searched (d : Document) : d.Searched := by
  induction d using parts_induction with
  | scalar d harray hobject =>
    intro path
    rw [repeated?_scalar harray hobject]
    refine ⟨fun _ hrepeats => ?_, fun _ => rfl⟩
    cases hrepeats with
    | here => cases hobject
    | item => cases harray
    | member => cases hobject
  | array items ih =>
    intro path
    rw [repeated?, repeatedInItems?_eq_none_iff ih]
    constructor
    · rintro hnone (_ | ⟨hitem, hrepeats⟩)
      exact hnone _ hitem hrepeats
    · intro hnot item hitem hrepeats
      exact hnot (.item hitem hrepeats)
  | object members ih =>
    intro path
    rw [repeated?, repeatedInMembers?_eq_none_iff ih]
    constructor
    · rintro ⟨-, hnodup, hnone⟩ hrepeats
      cases hrepeats with
      | here htwice => exact htwice hnodup
      | member hmember hrepeats => exact hnone _ hmember hrepeats
    · intro hnot
      refine ⟨fun _ _ => List.not_mem_nil, ?_, ?_⟩
      · exact Classical.byContradiction fun htwice => hnot (.here htwice)
      · exact fun member hmember hrepeats => hnot (.member hmember hrepeats)

/-! Keys repeated below are repeated. -/

section

variable {d value : Document} {key : String}

private theorem RepeatsKey.of_mem_members (hmember : (key, value) ∈ d.members)
    (h : value.RepeatsKey) :
    d.RepeatsKey := by
  cases d with
  | object members => exact .member hmember h
  | _ => cases hmember

theorem RepeatsKey.of_mem_items (hitem : value ∈ d.items) (h : value.RepeatsKey) :
    d.RepeatsKey := by
  cases d with
  | array items => exact .item hitem h
  | _ => cases hitem

theorem RepeatsKey.of_get? (hvalue : d.get? key = some value) (h : value.RepeatsKey) :
    d.RepeatsKey :=
  .of_mem_members (mem_members_of_get? hvalue) h

private theorem RepeatsKey.of_mem_oneOrMany (hvalue : value ∈ d.oneOrMany) (h : value.RepeatsKey) :
    d.RepeatsKey := by
  cases d with
  | array items => exact .item hvalue h
  | _ => exact List.mem_singleton.mp hvalue ▸ h

theorem keys_nodup (h : ¬ d.RepeatsKey) : d.keys.Nodup := by
  cases d with
  | object members => exact by_contra fun hnodup => h (.here hnodup)
  | _ => exact List.nodup_nil

end

theorem RepeatsKey.of_mem_subschemas {schema part : Document} (hpart : part ∈ schema.subschemas)
    (h : part.RepeatsKey) : schema.RepeatsKey := by
  have hmap : ∀ {keyword}, part ∈ schema.schemasIn keyword → schema.RepeatsKey := by
    intro keyword hin
    obtain ⟨map, name, hmap, hmember⟩ := mem_schemasIn.mp hin
    exact .of_get? hmap (.of_mem_members hmember h)
  have hlist : ∀ {keyword}, part ∈ schema.schemasOf keyword → schema.RepeatsKey := by
    intro keyword hof
    obtain ⟨list, hlist, hitem⟩ := mem_schemasOf.mp hof
    exact .of_get? hlist (.of_mem_items hitem h)
  cases href : schema.get? "$ref" with
  | some target => simp [subschemas, has, href] at hpart
  | none =>
      rcases (mem_subschemas href).mp hpart with
        hpart | hpart | hpart | hpart | ⟨items, hitems, hpart⟩ | hpart | hpart | hpart
      · exact hmap hpart
      · exact .of_get? hpart h
      · exact hmap hpart
      · exact .of_get? hpart h
      · exact .of_get? hitems (.of_mem_oneOrMany hpart h)
      · exact hlist hpart
      · exact hlist hpart
      · exact hlist hpart

end SchemaCodec.Document
