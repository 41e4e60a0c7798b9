import SchemaCodec.Codec.Declaration

namespace SchemaCodec.Declaration

/-! The order of declarations: each behind those it refers to, as far as there is no cycle. -/

/-- The positions of the declarations that the one at position `i` refers to. A name stands for its
first declaration. -/
def targets (declarations : List Declaration) (i : Nat) : List Nat :=
  match declarations[i]? with
  | some d =>
    (d.type.dependencies.filterMap fun name => declarations.findIdx? (·.name == name)).filter
      (· ≠ i)
  | none => []

/-- A walk over declarations: the positions entered so far, and those left again, last one first. -/
structure Walk where
  entered : List Nat
  left : List Nat

/-- Enter a position unless it has been entered before, go on to its targets, and leave it. -/
def visit (targets : Nat → List Nat) : (fuel : Nat) → Walk → Nat → Walk
  | 0, walk, _ => walk
  | fuel + 1, walk, i =>
    if i ∈ walk.entered then walk
    else
      let walk := (targets i).foldl (visit targets fuel) ⟨i :: walk.entered, walk.left⟩
      ⟨walk.entered, i :: walk.left⟩

/-- The positions of the declarations in the order in which they are left. -/
def order (declarations : List Declaration) : List Nat :=
  let positions := List.range declarations.length
  (positions.foldl (visit (targets declarations) declarations.length) ⟨[], []⟩).left.reverse

/-- Put every declaration behind those it refers to. Cycles are broken where they close. -/
def sort (declarations : List Declaration) : List Declaration :=
  (order declarations).filterMap fun i => declarations[i]?

end SchemaCodec.Declaration
