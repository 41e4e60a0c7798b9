import SchemaCodec.Proofs.Document.Parsing
import SchemaCodec.Proofs.Json.RoundTrip

namespace SchemaCodec.Document.Draft

/-! Drafts as they can be made: whichever way, the index of every object in them fits its members. -/

/-- What is read from a text, what is put together from drafts, and what is a part of one. -/
inductive Built : Draft → Prop where
  | read {draft : Draft} : draft.Read → Built draft
  | gap : Built .gap
  | null : Built .null
  | bool (value : Bool) : Built (.bool value)
  | number (text : String) : Built (.number text)
  | string (text : String) : Built (.string text)
  | list {items : List Draft} : (∀ item ∈ items, Built item) → Built (.list items)
  | ofParts {members : List (String × Draft)} :
      (∀ member ∈ members, Built member.2) → Built (.ofParts members)
  | without {draft : Draft} (dropped : List String) : Built draft → Built (draft.without dropped)
  | part {part draft : Draft} : Built draft → part.Within draft → Built part

private theorem sound_ofParts {members : List (String × Draft)}
    (h : ∀ member ∈ members, member.2.Sound) :
    (ofParts members).Sound :=
  .object (Table.sound_ofMembers members) fun member hmember =>
    h member (Table.mem_of_mem_ofMembers hmember)

theorem Sound.without {draft : Draft} (h : draft.Sound) (dropped : List String) :
    (draft.without dropped).Sound := by
  cases h with
  | object htable hvalues =>
      refine .object (Table.sound_without _ dropped) fun member hmember => ?_
      exact hvalues member (htable.mem_without.mp hmember).1
  | _ => exact .object Table.sound_empty (List.forall_mem_nil _)

theorem Built.sound {draft : Draft} (h : draft.Built) : draft.Sound := by
  induction h with
  | read hread => exact hread.sound
  | gap => exact .gap
  | null => exact .null
  | bool value => exact .bool value
  | number text => exact .number text
  | string text => exact .string text
  | list _ ih => exact .list ih
  | ofParts _ ih => exact sound_ofParts ih
  | without dropped _ ih => exact ih.without dropped
  | part _ hpart ih => exact ih.within hpart

theorem Sound.members_without {draft : Draft} (h : draft.Sound) (dropped : List String) :
    (draft.without dropped).members =
      draft.members.filter fun member => !dropped.contains member.1 := by
  cases h with
  | object htable _ => exact htable.members_without dropped
  | _ => rfl

theorem Sound.get?_without {draft : Draft} (h : draft.Sound) (dropped : List String)
    (key : String) :
    (draft.without dropped).get? key = if key ∈ dropped then none else draft.get? key := by
  cases h with
  | object htable _ => exact htable.get?_without dropped key
  | _ =>
      change none = ite _ none none
      rw [ite_self]

/-- An object made of members has each of their keys once, in the order in which they first occur,
and the index leads from a key to the value of the last member under it, and from no other key to
anything. What is left when keys are taken out are the members under other keys, in their order.
And in every part of every draft that can be made, read from a text or not, keys are distinct and
the index leads from a key to the one member under it. A search of the members of the document leads
to the same. -/
theorem objects_keep_keys_apart (members : List (String × Draft)) (draft part : Draft)
    (hdraft : draft.Built) (hpart : part.Within draft) (dropped : List String) :
    (Codec.FirstOccurrences (members.map Prod.fst) (ofParts members).keys ∧
      (∀ key value, (ofParts members).get? key = some value ↔ Table.IsLast members key value) ∧
      ∀ key, (ofParts members).get? key = none ↔ key ∉ members.map Prod.fst) ∧
    ((part.without dropped).members =
        part.members.filter (fun member => !dropped.contains member.1) ∧
      ∀ key, (part.without dropped).get? key =
        if key ∈ dropped then none else part.get? key) ∧
    (part.keys.Nodup ∧
      (∀ key value, part.get? key = some value ↔ (key, value) ∈ part.members) ∧
      (∀ key, part.get? key = none ↔ key ∉ part.keys) ∧
      part.document.keys = part.keys ∧
      ∀ key, part.document.get? key = (part.get? key).map document) := by
  have hsound : part.Sound := hdraft.sound.within hpart
  refine ⟨⟨?_, ?_, ?_⟩, ⟨?_, ?_⟩, ⟨?_, ?_, ?_, ?_, ?_⟩⟩
  · exact Table.firstOccurrences_ofMembers members
  · exact fun _ _ => Table.get?_ofMembers_eq_some_iff
  · exact fun _ => Table.get?_ofMembers_eq_none_iff
  · exact hsound.members_without dropped
  · exact hsound.get?_without dropped
  · exact hsound.keys_nodup
  · exact fun _ _ => hsound.get?_eq_some_iff
  · exact fun _ => hsound.get?_eq_none_iff
  · exact keys_document part
  · exact hsound.get?_document

def repeatedMembers : List (String × Draft) :=
  [("size", .gap), ("name", .string "box"), ("size", .number "2")]

def innerDocument : Document :=
  .object [("size", .null), ("name", .string "lid")]

def nestedDocument : Document :=
  .object [("size", .bool true), ("name", .array [innerDocument])]

theorem objects_keep_keys_apart_nested :
    Json.read (Text.encode nestedDocument.encode.toList) = .ok (whole nestedDocument) ∧
      (whole innerDocument).Within (whole nestedDocument) ∧
      (ofParts repeatedMembers).get? "size" = some (.number "2") ∧
      (ofParts repeatedMembers).keys.Nodup ∧
      ((whole innerDocument).without ["name"]).get? "size" = (whole innerDocument).get? "size" ∧
      (whole innerDocument).get? "name" = some (.string "lid") := by
  have hinner : innerDocument.WellFormed := by
    refine .object (by decide) ?_
    simp only [List.forall_mem_cons]
    exact ⟨.null, .string _, List.forall_mem_nil _⟩
  have hnested : nestedDocument.WellFormed := by
    refine .object (by decide) ?_
    simp only [List.forall_mem_cons]
    exact ⟨.bool _, .array (by simpa using hinner), List.forall_mem_nil _⟩
  have hread := Json.read_encode_of_wellFormed hnested
  have hpart : (whole innerDocument).Within (whole nestedDocument) :=
    .member (.tail _ (.head _)) (.item (.head _) .whole)
  obtain ⟨⟨hfirst, hlast, -⟩, ⟨-, hleft⟩, -, hget, -⟩ :=
    objects_keep_keys_apart repeatedMembers _ _ (.read ⟨_, .inl hread⟩) hpart ["name"]
  refine ⟨hread, hpart, (hlast _ _).mpr ?_, hfirst.nodup, ?_, (hget _ _).mpr (.tail _ (.head _))⟩
  · exact ⟨[("size", .gap), ("name", .string "box")], [], rfl, List.not_mem_nil⟩
  · exact (hleft "size").trans (if_neg (by decide))

end SchemaCodec.Document.Draft
