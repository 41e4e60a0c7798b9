import SchemaCodec.Proofs.Module.DeclarationOrder
import SchemaCodec.Proofs.Order.Traversal

namespace SchemaCodec.Declaration

open Relation

/-! Sorted declarations: all that were there, each behind those it depends on, unless these depend
on it in turn. -/

def Leads (declarations : List Declaration) (i j : Nat) : Prop :=
  DependsOn declarations i j ∧ j ≠ i

theorem targets_eq_leads (declarations : List Declaration) :
    (fun i j => j ∈ targets declarations i) = Leads declarations := by
  funext i j
  exact propext mem_targets

section

variable {declarations : List Declaration} {i j : Nat}

private theorem order_leads (h : Leads declarations i j) :
    Precedes (order declarations) j i ∨ TransGen (Leads declarations) j i := by
  rcases order_settled (mem_targets.mpr h) (lt_length_of_dependsOn h.1) with
    hcycle | ⟨before, after, horder, hbefore⟩
  · rw [targets_eq_leads] at hcycle
    exact .inr hcycle
  · rw [horder]
    exact .inl (precedes_of_mem_front hbefore)

/-- Where no declaration leads back to itself, none stands before one that it depends on. -/
theorem order_leads_of_acyclic (hacyclic : ∀ i, ¬ TransGen (Leads declarations) i i)
    (h : Leads declarations i j) : Precedes (order declarations) j i := by
  rcases order_leads h with hbefore | hback
  · exact hbefore
  · exact absurd (hback.tail h) (hacyclic j)

theorem transGen_lt {rank : Nat → Nat} (hrank : ∀ i j, Leads declarations i j → rank j < rank i)
    (h : TransGen (Leads declarations) i j) : rank j < rank i := by
  induction h with
  | single hstep => exact hrank _ _ hstep
  | tail _ hstep ih => exact Nat.lt_trans (hrank _ _ hstep) ih

end

/-- The walk over the declarations comes to an end, however they depend on each other. Sorting lists
the declarations as the walk leaves them: all of them, each behind those it depends on, except for
those from which it can be reached again. -/
theorem sort_dependency_order (declarations : List Declaration) :
    ∃ walk : Walk,
      Traverses (targets declarations) ⟨[], []⟩ (List.range declarations.length) walk ∧
      (sort declarations).map some = walk.left.reverse.map (fun i => declarations[i]?) ∧
      walk.left.reverse.Perm (List.range declarations.length) ∧
      (sort declarations).Perm declarations ∧
      (∀ i j, Leads declarations i j →
        Precedes walk.left.reverse j i ∨ TransGen (Leads declarations) j i) ∧
      ((∀ i, ¬ TransGen (Leads declarations) i i) →
        ∀ i j, Leads declarations i j → Precedes walk.left.reverse j i) := by
  obtain ⟨walk, horder, htraverses⟩ := order_traversal declarations
  refine ⟨walk, htraverses, ?_⟩
  rw [← horder]
  refine ⟨map_some_sort declarations, order_perm declarations, sort_perm declarations, ?_, ?_⟩
  · intro i j h
    exact order_leads h
  · intro hacyclic i j h
    exact order_leads_of_acyclic hacyclic h

/-- A root that needs what stands behind it, a name that is not declared, and one that is declared
twice. -/
def depotDeclarations : List Declaration :=
  [.plain "Depot" (.custom "Shelf" "Shelf" ["Shelf", "Other_"]),
    .plain "Box" .string,
    .plain "Shelf" (.array (.identifier "Box")),
    .plain "Box" (.custom "Box" "Box" ["Box", "Depot"])]

theorem depotDeclarations_acyclic : ∀ i, ¬ TransGen (Leads depotDeclarations) i i := by
  have hrank : ∀ i j, Leads depotDeclarations i j →
      ([2, 0, 1, 3].getD j 0 : Nat) < [2, 0, 1, 3].getD i 0 := by
    intro i j h
    have hmem : j ∈ targets depotDeclarations i := mem_targets.mpr h
    rcases i with _ | _ | _ | _ | i
    · have htargets : targets depotDeclarations 0 = [2] := by decide
      rw [htargets, List.mem_singleton] at hmem
      rw [hmem]
      decide
    · have htargets : targets depotDeclarations 1 = [] := by decide
      rw [htargets] at hmem
      cases hmem
    · have htargets : targets depotDeclarations 2 = [1] := by decide
      rw [htargets, List.mem_singleton] at hmem
      rw [hmem]
      decide
    · have htargets : targets depotDeclarations 3 = [1, 0] := by decide
      rw [htargets, List.mem_pair] at hmem
      rcases hmem with rfl | rfl <;> decide
    · cases hmem
  intro i hcycle
  exact Nat.lt_irrefl _ (transGen_lt hrank hcycle)

private theorem depotDeclarations_leads : Leads depotDeclarations 0 2 :=
  mem_targets.mp (by decide)

theorem sort_dependency_order_depot :
    (∀ i, ¬ TransGen (Leads depotDeclarations) i i) ∧ Leads depotDeclarations 0 2 ∧
      ∃ walk : Walk, Traverses (targets depotDeclarations) ⟨[], []⟩ [0, 1, 2, 3] walk ∧
        (sort depotDeclarations).Perm depotDeclarations ∧ Precedes walk.left.reverse 2 0 := by
  obtain ⟨walk, htraverses, -, -, hperm, -, hordered⟩ := sort_dependency_order depotDeclarations
  exact ⟨depotDeclarations_acyclic, depotDeclarations_leads, walk, htraverses, hperm,
    hordered depotDeclarations_acyclic 0 2 depotDeclarations_leads⟩

end SchemaCodec.Declaration
