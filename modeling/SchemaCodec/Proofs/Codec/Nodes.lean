import Mathlib.Logic.Relation
import SchemaCodec.Codec.Basic

/-! The nodes of a codec. -/

namespace SchemaCodec.Codec

private theorem sizeOf_lt_of_mem_children {codec part : Codec} (h : part ∈ codec.children) :
    sizeOf part < sizeOf codec := by
  cases codec with
  | object shape properties =>
      obtain ⟨⟨key, type, optional, description⟩, hproperty, rfl⟩ := List.mem_map.mp h
      have hlt := List.sizeOf_lt_of_mem hproperty
      simp only [object.sizeOf_spec, Property.mk.sizeOf_spec] at hlt ⊢
      omega
  | wrapper w inner =>
      rw [List.mem_singleton.mp h, wrapper.sizeOf_spec]
      omega
  | group g members =>
      have hlt : sizeOf part < sizeOf members := List.sizeOf_lt_of_mem h
      rw [group.sizeOf_spec]
      omega
  | record domain codomain =>
      simp only [children, List.mem_cons, List.not_mem_nil, or_false] at h
      rw [record.sizeOf_spec]
      rcases h with rfl | rfl <;> omega
  | brand inner condition name =>
      rw [List.mem_singleton.mp h, brand.sizeOf_spec]
      omega
  | _ => cases h

/-- What holds for a codec whenever it holds for its parts holds for all codecs. -/
theorem children_induction {motive : Codec → Prop}
    (step : ∀ codec, (∀ part ∈ codec.children, motive part) → motive codec) (codec : Codec) :
    motive codec :=
  step codec fun part _ => children_induction step part
termination_by sizeOf codec
decreasing_by exact sizeOf_lt_of_mem_children ‹_›

/-- The codec and all codecs inside of it, each in front of its parts. -/
def nodes (codec : Codec) : List Codec :=
  codec :: codec.children.attach.flatMap fun part => nodes part.1
termination_by sizeOf codec
decreasing_by exact sizeOf_lt_of_mem_children part.2

theorem nodes_eq (codec : Codec) : codec.nodes = codec :: codec.children.flatMap nodes := by
  rw [nodes, List.flatMap_subtype (g := nodes) fun _ _ => rfl, List.unattach_attach]

/-- A node is the codec itself or lies below it. -/
def Contains : Codec → Codec → Prop :=
  Relation.ReflTransGen fun whole part => part ∈ whole.children

theorem contains_iff {codec node : Codec} :
    codec.Contains node ↔ node = codec ∨ ∃ part ∈ codec.children, part.Contains node := by
  constructor
  · intro h
    rcases Relation.ReflTransGen.cases_head h with rfl | ⟨part, hpart, hnode⟩
    · exact .inl rfl
    · exact .inr ⟨part, hpart, hnode⟩
  · rintro (rfl | ⟨part, hpart, hnode⟩)
    · exact .refl
    · exact .head hpart hnode

theorem mem_nodes {codec node : Codec} : node ∈ codec.nodes ↔ codec.Contains node := by
  induction codec using children_induction with
  | step codec ih =>
      rw [nodes_eq, List.mem_cons, List.mem_flatMap, contains_iff]
      apply or_congr_right
      apply exists_congr
      intro part
      exact and_congr_right (ih part)

end SchemaCodec.Codec
