import SchemaCodec.Proofs.Document.Drafts
import SchemaCodec.Proofs.Except
import SchemaCodec.Yaml.Reader

namespace SchemaCodec.Yaml

open Document (Draft Table)

/-! Nodes are read as sound drafts. The keys that have begun are remembered apart from the index of
the object that is being read; a key in the index has begun before. -/

private theorem sound_scalarValue {position : Document.Position} {tag : Option String}
    {isPlain : Bool}
    {text : String} {d : Document} (h : scalarValue position tag isPlain text = .ok d) :
    (Draft.whole d).Sound := by
  unfold scalarValue at h
  dsimp only at h
  repeat' split at h
  all_goals
    cases h <;> constructor

namespace Node

/-- Induction from the nodes that are read with a node to the node. -/
@[elab_as_elim]
theorem induction {motive : Node → Prop}
    (scalar : ∀ position tag isPlain text, motive (.scalar position tag isPlain text))
    (sequence : ∀ position items, (∀ item ∈ items, motive item) → motive (.sequence position items))
    (mapping : ∀ position (pairs : List (Node × Node)),
      (∀ value ∈ pairs.map Prod.snd, motive value) → motive (.mapping position pairs))
    (named : ∀ position name target, motive target → motive (.alias position name target))
    (circular : ∀ position name, motive (.circular position name))
    (node : Node) : motive node := by
  refine @Node.rec motive (fun items => ∀ item ∈ items, motive item)
    (fun pairs => ∀ value ∈ pairs.map Prod.snd, motive value) (fun pair => motive pair.2)
    scalar sequence mapping named circular ?noItems ?item ?noPairs ?pair ?value node
  case noItems => exact List.forall_mem_nil _
  case item => exact fun _ _ hitem hrest => List.forall_mem_cons.mpr ⟨hitem, hrest⟩
  case noPairs => exact List.forall_mem_nil _
  case pair => exact fun _ _ hpair hrest => List.forall_mem_cons.mpr ⟨hpair, hrest⟩
  case value => exact fun _ _ _ hvalue => hvalue

/-- An object while its pairs are read. -/
structure Known (begun : List (String × Document.Position)) (table : Table Draft) : Prop where
  sound : table.Sound
  begun : ∀ key, begun.lookup key = none → table.place? key = none
  values : ∀ member ∈ table.members, member.2.Sound

private theorem known_empty : Known [] .empty :=
  ⟨Table.sound_empty, fun _ _ => rfl, List.forall_mem_nil _⟩

theorem Known.push {begun : List (String × Document.Position)} {table : Table Draft} {key : String}
    {draft : Draft} (h : Known begun table) (hnew : begun.lookup key = none)
    (hdraft : draft.Sound) (position : Document.Position) :
    Known ((key, position) :: begun) (table.push key draft) := by
  refine ⟨h.sound.push (h.begun key hnew), fun other hother => ?_, fun member hmember => ?_⟩
  · by_cases hkey : other = key
    · rw [hkey, List.lookup_cons_self] at hother
      cases hother
    · rw [Document.lookup_cons_of_ne hkey] at hother
      rw [Table.place?_push_of_ne hkey]
      exact h.begun other hother
  · rcases List.mem_append.mp hmember with hknown | hlast
    · exact h.values member hknown
    · rw [List.mem_singleton.mp hlast]
      exact hdraft

private theorem sound_itemsOf {items : List Node} {drafts : List Draft}
    (hitems : ∀ item ∈ items, ∀ draft, item.toDraft = .ok draft → draft.Sound)
    (h : itemsOf items = .ok drafts) : ∀ draft ∈ drafts, draft.Sound := by
  induction items generalizing drafts with
  | nil =>
      cases h
      exact List.forall_mem_nil _
  | cons item rest ih =>
      rw [itemsOf] at h
      obtain ⟨first, hfirst, h⟩ := exists_of_bind_eq_ok h
      obtain ⟨others, hothers, h⟩ := exists_of_bind_eq_ok h
      cases h
      rw [List.forall_mem_cons] at hitems ⊢
      exact ⟨hitems.1 first hfirst, ih hitems.2 hothers⟩

private theorem known_tableOf {begun : List (String × Document.Position)}
    {known table : Table Draft}
    {pairs : List (Node × Node)} (hknown : Known begun known)
    (hvalues : ∀ value ∈ pairs.map Prod.snd, ∀ draft, value.toDraft = .ok draft → draft.Sound)
    (h : tableOf begun known pairs = .ok table) : ∃ begun, Known begun table := by
  induction pairs generalizing begun known with
  | nil =>
      cases h
      exact ⟨begun, hknown⟩
  | cons pair rest ih =>
      obtain ⟨key, value⟩ := pair
      rw [List.map_cons, List.forall_mem_cons] at hvalues
      rw [tableOf] at h
      split at h
      · cases h
      · next hnew =>
          obtain ⟨draft, hdraft, h⟩ := exists_of_bind_eq_ok h
          exact ih (hknown.push hnew (hvalues.1 draft hdraft) key.position) hvalues.2 h

private theorem sound_toDraft (node : Node) : ∀ draft, node.toDraft = .ok draft → draft.Sound := by
  induction node using Node.induction with
  | scalar position tag isPlain text =>
      intro draft h
      rw [toDraft] at h
      obtain ⟨d, hvalue, h⟩ := exists_of_bind_eq_ok h
      cases h
      exact sound_scalarValue hvalue
  | sequence position items ih =>
      intro draft h
      rw [toDraft] at h
      obtain ⟨drafts, hdrafts, h⟩ := exists_of_bind_eq_ok h
      cases h
      exact .list (sound_itemsOf ih hdrafts)
  | mapping position pairs ih =>
      intro draft h
      rw [toDraft] at h
      obtain ⟨table, htable, h⟩ := exists_of_bind_eq_ok h
      cases h
      obtain ⟨begun, hknown⟩ := known_tableOf known_empty ih htable
      exact .object hknown.sound hknown.values
  | named position name target ih => exact ih
  | circular position name =>
      intro draft h
      cases h

end Node

theorem sound_of_read {bytes : List UInt8} {draft : Draft} (h : read bytes = .ok draft) :
    draft.Sound := by
  unfold read at h
  split at h
  · cases h
  · cases h
  · exact Node.sound_toDraft _ draft h

end SchemaCodec.Yaml
