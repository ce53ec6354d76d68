import SqlQuery.Tree.Walk

/-!
What stands below a node, at any depth: every walk meets it after the node.
-/

namespace SqlQuery

namespace Node

/-- What holds of a node once it holds of its children holds of every node. -/
theorem children_induction {P : Node → Prop} (step : ∀ n : Node, (∀ c ∈ n.children, P c.2) → P n)
    (n : Node) : P n :=
  step n fun c mem =>
    have := n.measure_child c mem
    children_induction step c.2
termination_by n.measure

/-- The second node stands somewhere below the first. -/
def Below (n m : Node) : Prop := ∃ c ∈ n.children, m ∈ c.2.walk

theorem mem_walk {n m : Node} : m ∈ n.walk ↔ m = n ∨ n.Below m := by
  rw [walk_eq, List.mem_cons, List.mem_flatMap]
  rfl

theorem Below.child {n m : Node} (role : String) (mem : (role, m) ∈ n.children) : n.Below m :=
  ⟨_, mem, mem_walk.2 (.inl rfl)⟩

theorem below_of_mem_walk {n m k : Node} (h : m ∈ n.walk) (below : m.Below k) : n.Below k := by
  induction n using children_induction with
  | step n ih =>
    rcases mem_walk.1 h with rfl | ⟨c, mem, inner⟩
    · exact below
    · exact ⟨c, mem, mem_walk.2 (.inr (ih c mem inner))⟩

/-- The children of a node below are below. -/
theorem Below.children {n m : Node} (h : n.Below m) : ∀ c ∈ m.children, n.Below c.2 := by
  intro c mem
  obtain ⟨first, child, inner⟩ := h
  exact ⟨first, child, mem_walk.2 (.inr (below_of_mem_walk inner (.child _ mem)))⟩

/-- What a node below holds is held by the node. -/
theorem Below.walk {n m k : Node} (h : n.Below m) (mem : k ∈ m.walk) : k ∈ n.walk := by
  rcases mem_walk.1 mem with rfl | deeper
  · exact mem_walk.2 (.inr h)
  · obtain ⟨c, first, inner⟩ := h
    exact mem_walk.2 (.inr ⟨c, first, mem_walk.2 (.inr (below_of_mem_walk inner deeper))⟩)

/-- What stands below a node is a child of the node or of something below it. -/
theorem Below.parent {n m : Node} (h : n.Below m) : ∃ k ∈ n.walk, ∃ role, (role, m) ∈ k.children := by
  induction n using children_induction with
  | step n ih =>
    obtain ⟨⟨role, c⟩, mem, inner⟩ := h
    rcases mem_walk.1 inner with rfl | below
    · exact ⟨n, mem_walk.2 (.inl rfl), role, mem⟩
    · obtain ⟨k, inside, parent⟩ := ih _ mem below
      exact ⟨k, (Below.child role mem).walk inside, parent⟩

theorem measure_lt {n m : Node} (h : n.Below m) : m.measure < n.measure := by
  induction n using children_induction with
  | step n ih =>
    obtain ⟨c, mem, inner⟩ := h
    have small := n.measure_child c mem
    rcases mem_walk.1 inner with rfl | below
    · exact small
    · exact Nat.lt_trans (ih c mem below) small

theorem forall_mem_walk {n : Node} {P : Node → Prop} :
    (∀ m ∈ n.walk, P m) ↔ P n ∧ ∀ m, n.Below m → P m := by
  constructor
  · intro all
    exact ⟨all n (mem_walk.2 (.inl rfl)), fun m below => all m (mem_walk.2 (.inr below))⟩
  · rintro ⟨own, below⟩ m mem
    rcases mem_walk.1 mem with rfl | inside
    · exact own
    · exact below m inside

theorem forall_mem_walk_children {n : Node} {P : Node → Prop} :
    (∀ m ∈ n.walk, P m) ↔ P n ∧ ∀ c ∈ n.children, ∀ m ∈ c.2.walk, P m := by
  rw [walk_eq, List.forall_mem_cons, List.forall_mem_flatMap]

end Node

end SqlQuery
