namespace SchemaCodec

/-! Sets that list their values in the order in which they were added. -/

structure OrderedSet where
  values : List String
  nodup : values.Nodup

namespace OrderedSet

def empty : OrderedSet :=
  ⟨[], .nil⟩

instance : EmptyCollection OrderedSet :=
  ⟨empty⟩

def has (set : OrderedSet) (value : String) : Bool :=
  set.values.contains value

/-- The set with one more value. A value that is there keeps its place. -/
def add (set : OrderedSet) (value : String) : OrderedSet :=
  if h : value ∈ set.values then set
  else ⟨set.values ++ [value], by
    rw [List.nodup_append]
    refine ⟨set.nodup, by simp, ?_⟩
    intro a ha b hb
    rw [List.mem_singleton.1 hb]
    exact fun hab => h (hab ▸ ha)⟩

def addAll (set : OrderedSet) (values : List String) : OrderedSet :=
  values.foldl add set

def size (set : OrderedSet) : Nat :=
  set.values.length

end OrderedSet

end SchemaCodec
