import Mathlib.Data.List.MinMax
import Mathlib.Order.Nat
import SqlQuery.Proofs.Nesting.Path
import SqlQuery.Proofs.Tree.Below

/-!
The height of a node: how many nodes stand on a longest path down from it.
-/

namespace SqlQuery

namespace Node

/-- One more than the height of the highest child. -/
def height (n : Node) : Nat :=
  (n.children.attach.map fun c => height c.1.2).foldr max 0 + 1
termination_by n.measure
decreasing_by exact Node.measure_child n c.1 c.2

variable {n m : Node}

theorem height_eq (n : Node) :
    n.height = (n.children.map fun c => c.2.height).foldr max 0 + 1 := by
  rw [height]
  conv => rhs; rw [← List.attach_map_subtype_val n.children, List.map_map]
  rfl

theorem height_child (n : Node) : ∀ c ∈ n.children, c.2.height < n.height := by
  intro c mem
  have highest : c.2.height ≤ (n.children.map fun c => c.2.height).foldr max ⊥ :=
    List.le_max_of_le (List.mem_map_of_mem mem) (Nat.le_refl _)
  rw [height_eq n]
  exact Nat.lt_succ_of_le highest

theorem height_below (h : n.Below m) : m.height < n.height := by
  induction n using children_induction with
  | step n ih =>
    obtain ⟨c, mem, inner⟩ := h
    have small := n.height_child c mem
    rcases mem_walk.1 inner with rfl | below
    · exact small
    · exact Nat.lt_trans (ih c mem below) small

/-- The height is the number of nodes on the longest path down: the node and the parts after it. -/
theorem height_le_iff {most : Nat} :
    n.height ≤ most ↔ ∀ path, n.Path path → path.length + 1 ≤ most := by
  induction n using children_induction generalizing most with
  | step n ih =>
    constructor
    · intro low path down
      cases down with
      | nil =>
        rw [height_eq] at low
        exact Nat.le_trans (Nat.le_add_left 1 _) low
      | @cons _ c path mem below =>
        have small := n.height_child c mem
        have rest := (ih c mem).1 (Nat.le_refl _) path below
        rw [List.length_cons]
        omega
    · intro short
      cases most with
      | zero => exact absurd (short [] .nil) (by simp)
      | succ most =>
        rw [height_eq]
        refine Nat.succ_le_succ (List.max_le_of_forall_le _ _ ?_)
        rw [List.forall_mem_map]
        intro c mem
        exact (ih c mem).2 fun path down => Nat.le_of_succ_le_succ (short (c :: path) (.cons mem down))

end Node

end SqlQuery
