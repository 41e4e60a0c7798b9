import SchemaCodec.Document.Draft
import SchemaCodec.Proofs.Document.Repetition
import SchemaCodec.Proofs.Document.Tables

namespace SchemaCodec.Document.Draft

/-! Drafts and the documents they stand for. In a sound draft the index of every object has the
place of every key, so lookups in the draft and in its document agree. -/

private theorem documentItems_eq_map (items : List Draft) :
    documentItems items = items.map document := by
  induction items with
  | nil => rfl
  | cons item rest ih => exact congrArg (item.document :: ·) ih

private theorem documentMembers_eq_map (members : List (String × Draft)) :
    documentMembers members = members.map fun member => (member.1, member.2.document) := by
  induction members with
  | nil => rfl
  | cons member rest ih => exact congrArg ((member.1, member.2.document) :: ·) ih

theorem document_list (items : List Draft) :
    (list items).document = .array (items.map document) := by
  rw [← documentItems_eq_map]
  rfl

theorem document_object (table : Table Draft) :
    (object table).document =
      .object (table.members.map fun member => (member.1, member.2.document)) := by
  rw [← documentMembers_eq_map]
  rfl

theorem wholeItems_eq_map (items : List Document) : wholeItems items = items.map whole := by
  induction items with
  | nil => rfl
  | cons item rest ih => exact congrArg (whole item :: ·) ih

private theorem members_wholeMembers (known : Table Draft) (members : List (String × Document)) :
    (wholeMembers known members).members =
      known.members ++ members.map fun member => (member.1, whole member.2) := by
  induction members generalizing known with
  | nil => exact (List.append_nil _).symm
  | cons member rest ih =>
      change (wholeMembers (known.push member.1 (whole member.2)) rest).members = _
      rw [ih, List.map_cons]
      exact List.append_assoc ..

theorem document_whole (d : Document) : (whole d).document = d := by
  induction d using parts_induction with
  | scalar d harray hobject =>
      cases d with
      | array => cases harray
      | object => cases hobject
      | _ => rfl
  | array items ih =>
      have hitems : (items.map whole).map document = items := by
        rw [List.map_map]
        exact (List.map_congr_left ih).trans (List.map_id _)
      rw [whole, document_list, wholeItems_eq_map, hitems]
  | object members ih =>
      have hmembers : (members.map fun member => (member.1, (whole member.2).document)) = members :=
        (List.map_congr_left fun member hmember =>
          congrArg (Prod.mk member.1) (ih member hmember)).trans (List.map_id _)
      rw [whole, document_object, members_wholeMembers, Table.empty, List.nil_append, List.map_map]
      exact congrArg Document.object hmembers

/-! Parts -/

/-- A part of a draft, at any depth. -/
inductive Within (part : Draft) : Draft → Prop where
  | whole : Within part part
  | item {items : List Draft} {item : Draft} :
      item ∈ items → Within part item → Within part (.list items)
  | member {table : Table Draft} {member : String × Draft} :
      member ∈ table.members → Within part member.2 → Within part (.object table)

inductive Sound : Draft → Prop where
  | gap : Sound .gap
  | null : Sound .null
  | bool (value : Bool) : Sound (.bool value)
  | number (text : String) : Sound (.number text)
  | string (text : String) : Sound (.string text)
  | list {items : List Draft} : (∀ item ∈ items, Sound item) → Sound (.list items)
  | object {table : Table Draft} :
      table.Sound → (∀ member ∈ table.members, Sound member.2) → Sound (.object table)

theorem Sound.within {part draft : Draft} (h : draft.Sound) (hpart : part.Within draft) :
    part.Sound := by
  induction hpart with
  | whole => exact h
  | item hitem _ ih =>
      cases h with
      | list hitems => exact ih (hitems _ hitem)
  | member hmember _ ih =>
      cases h with
      | object _ hvalues => exact ih (hvalues _ hmember)

theorem keys_document (draft : Draft) : draft.document.keys = draft.keys := by
  cases draft with
  | object table =>
      rw [document_object]
      change (table.members.map _).map Prod.fst = table.members.map Prod.fst
      rw [List.map_map]
      rfl
  | _ => rfl

theorem Sound.keys_nodup {draft : Draft} (h : draft.Sound) : draft.keys.Nodup := by
  cases h with
  | object htable _ => exact htable.nodup
  | _ => exact List.nodup_nil

theorem Sound.nodup_document {draft : Draft} (h : draft.Sound) : draft.document.keys.Nodup := by
  rw [keys_document]
  exact h.keys_nodup

theorem Sound.not_repeatsKey {draft : Draft} (h : draft.Sound) : ¬ draft.document.RepeatsKey := by
  induction h with
  | @list items _ ih =>
      rw [document_list]
      rintro (_ | ⟨hitem, hrepeats⟩)
      obtain ⟨item, hmem, rfl⟩ := List.mem_map.mp hitem
      exact ih item hmem hrepeats
  | @object table htable hvalues ih =>
      have hkeys := (Sound.object htable hvalues).nodup_document
      rw [document_object] at hkeys ⊢
      rintro (hagain | _ | ⟨hmember, hrepeats⟩)
      · exact hagain hkeys
      · obtain ⟨member, hmem, rfl⟩ := List.mem_map.mp hmember
        exact ih member hmem hrepeats
  | _ => rintro ⟨⟩

/-! Lookups -/

theorem Sound.get?_eq_some_iff {draft part : Draft} {key : String} (h : draft.Sound) :
    draft.get? key = some part ↔ (key, part) ∈ draft.members := by
  cases h with
  | object htable _ => exact htable.get?_eq_some_iff
  | _ => simp [get?, members]

theorem Sound.get?_eq_none_iff {draft : Draft} {key : String} (h : draft.Sound) :
    draft.get? key = none ↔ key ∉ draft.keys := by
  cases h with
  | object htable _ => exact htable.get?_eq_none_iff
  | _ => simp [get?, keys, members]

theorem Sound.get?_document {draft : Draft} (h : draft.Sound) (key : String) :
    draft.document.get? key = (draft.get? key).map document := by
  cases h with
  | @object table htable _ =>
      rw [document_object]
      change (table.members.map _).lookup key = (table.get? key).map document
      rw [htable.get?_eq_lookup]
      induction table.members with
      | nil => rfl
      | cons member rest ih =>
          rw [List.map_cons]
          by_cases hkey : key = member.1
          · rw [hkey, List.lookup_cons_self, List.lookup_cons_self]
            rfl
          · rw [lookup_cons_of_ne hkey, lookup_cons_of_ne hkey, ih]
  | _ => rfl

end SchemaCodec.Document.Draft
