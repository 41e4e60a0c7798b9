namespace SchemaCodec.Document

/-! Tables: members in their order and, apart from them, an index of their keys. Keys are looked up
in the index only. -/

structure Table (α : Type) where
  members : List (String × α)
  /-- The places of the keys, the last one first. -/
  index : List (String × Nat)

namespace Table

def empty : Table α :=
  ⟨[], []⟩

def place? (table : Table α) (key : String) : Option Nat :=
  table.index.lookup key

def get? (table : Table α) (key : String) : Option α :=
  (table.place? key).bind fun place => (table.members[place]?).map Prod.snd

def push (table : Table α) (key : String) (value : α) : Table α where
  members := table.members ++ [(key, value)]
  index := (key, table.members.length) :: table.index

/-- Set the value of a key: at its place if it has one, else behind all others. -/
def put (table : Table α) (key : String) (value : α) : Table α :=
  match table.place? key with
  | some place => { table with members := table.members.set place (key, value) }
  | none => table.push key value

/-- Each key keeps its last value, at the place where it first occurs. -/
def ofMembers (members : List (String × α)) : Table α :=
  members.foldl (fun table member => table.put member.1 member.2) empty

def without (table : Table α) (keys : List String) : Table α :=
  ofMembers (table.members.filter fun member => !keys.contains member.1)

end Table

end SchemaCodec.Document
