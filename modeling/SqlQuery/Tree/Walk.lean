import SqlQuery.Tree.Node

/-!
Walking a node: the node itself, and then what its parts hold, from left to right.
-/

namespace SqlQuery

open Child

/-- Larger than the measure of every direct part. -/
noncomputable def Node.measure : Node → Nat
  | .distinct d => sizeOf d + 2
  | .filter condition | .having condition => sizeOf condition + 2
  | n => sizeOf n

theorem Child.forall_each {α : Type} {role : String} {f : α → Node} {as : List α}
    {p : Child → Prop} : (∀ c ∈ each role f as, p c) ↔ ∀ a ∈ as, p (role, f a) := by
  simp [each]

theorem Child.forall_maybe {α : Type} {role : String} {f : α → Node} {a : Option α}
    {p : Child → Prop} : (∀ c ∈ maybe role f a, p c) ↔ ∀ b ∈ a, p (role, f b) := by
  unfold maybe
  rw [forall_each]
  simp

theorem Child.mem_each {α : Type} {role : String} {f : α → Node} {as : List α} {a : α}
    (mem : a ∈ as) : (role, f a) ∈ each role f as :=
  List.mem_map_of_mem mem

theorem Child.mem_maybe {α : Type} {role : String} {f : α → Node} {o : Option α} {a : α}
    (mem : a ∈ o) : (role, f a) ∈ maybe role f o :=
  mem_each (Option.mem_toList.2 mem)

theorem sizeOf_lt_of_mem_option {α : Type} [SizeOf α] {a : Option α} {b : α} (h : b ∈ a) :
    sizeOf b < sizeOf a := by
  cases h
  simp

theorem sizeOf_string_pos (s : String) : 0 < sizeOf s := by cases s; simp +arith

theorem sizeOf_literal_pos (l : Literal) : 0 < sizeOf l := by cases l <;> simp +arith

theorem sizeOf_expr_pos (e : Expr) : 0 < sizeOf e := by cases e <;> simp +arith

theorem sizeOf_query_pos (q : Query) : 0 < sizeOf q := by cases q <;> simp +arith

theorem sizeOf_source_pos (s : Source) : 0 < sizeOf s := by cases s; simp +arith

theorem FunctionCall.measure_child (f : FunctionCall) :
    ∀ c ∈ f.children, c.2.measure < 1 + (1 + sizeOf f) := by
  obtain ⟨namespaces, name, argument, window⟩ := f
  simp only [FunctionCall.children, List.forall_mem_append, List.forall_mem_cons, forall_each,
    forall_maybe, List.not_mem_nil, false_implies, implies_true, and_true, Node.measure,
    Node.expr.sizeOf_spec, Node.overClause.sizeOf_spec, Node.identifier.sizeOf_spec,
    Expr.raw.sizeOf_spec, FunctionCall.mk.sizeOf_spec]
  grind [→ List.sizeOf_lt_of_mem, → sizeOf_lt_of_mem_option]

theorem TypeRef.measure_child (t : TypeRef) :
    ∀ c ∈ t.children, c.2.measure < 1 + (1 + sizeOf t) := by
  obtain ⟨name, argument⟩ := t
  simp only [TypeRef.children, List.forall_mem_cons, forall_maybe, Node.measure,
    Node.expr.sizeOf_spec, Expr.raw.sizeOf_spec, TypeRef.mk.sizeOf_spec]
  grind [→ sizeOf_lt_of_mem_option]

theorem Expr.measure_child (e : Expr) : ∀ c ∈ e.children, c.2.measure < 1 + sizeOf e := by
  cases e with
  | function call =>
    rw [Expr.children, Expr.function.sizeOf_spec]
    exact call.measure_child
  | type ref =>
    rw [Expr.children, Expr.type.sizeOf_spec]
    exact ref.measure_child
  | column ref =>
    obtain ⟨namespaces, column⟩ := ref
    simp only [Expr.children, List.forall_mem_append, List.forall_mem_cons, forall_each,
      List.not_mem_nil, false_implies, implies_true, and_true, Node.measure,
      Node.identifier.sizeOf_spec, Expr.column.sizeOf_spec, ColumnRef.mk.sizeOf_spec]
    grind [→ List.sizeOf_lt_of_mem]
  | case subject switch =>
    simp only [Expr.children, List.forall_mem_append, List.forall_mem_cons, forall_maybe,
      List.not_mem_nil, false_implies, implies_true, and_true, Node.measure,
      Node.expr.sizeOf_spec, Node.switch.sizeOf_spec, Expr.case.sizeOf_spec]
    grind [→ sizeOf_lt_of_mem_option]
  | tuple values | list values =>
    simp only [Expr.children, forall_each, Node.measure, Node.expr.sizeOf_spec,
      Expr.tuple.sizeOf_spec, Expr.list.sizeOf_spec]
    grind [→ List.sizeOf_lt_of_mem]
  | _ =>
    simp [Expr.children, Node.measure]
    try grind [sizeOf_string_pos, sizeOf_literal_pos, sizeOf_expr_pos]

theorem Select.measure_child (s : Select) : ∀ c ∈ s.children, c.2.measure < 1 + (1 + sizeOf s) := by
  obtain ⟨commonTables, clause, source, condition, groupBy, having, windows, orderBy, limit, fetch,
    lock⟩ := s
  simp only [Select.children, List.forall_mem_append, List.forall_mem_cons, forall_maybe,
    List.not_mem_nil, false_implies, implies_true, and_true, Node.measure,
    Node.commonTables.sizeOf_spec, Node.select.sizeOf_spec, Node.fromClause.sizeOf_spec,
    Node.groupBy.sizeOf_spec, Node.windows.sizeOf_spec, Node.orderBy.sizeOf_spec,
    Node.limit.sizeOf_spec, Node.fetch.sizeOf_spec, Node.lock.sizeOf_spec, Select.mk.sizeOf_spec]
  grind [→ sizeOf_lt_of_mem_option]

theorem Query.measure_child (q : Query) : ∀ c ∈ q.children, c.2.measure < 1 + sizeOf q := by
  cases q with
  | simple select =>
    rw [Query.children, Query.simple.sizeOf_spec]
    exact select.measure_child
  | binary left operator right =>
    simp [Query.children, Node.measure]
    grind [sizeOf_query_pos]
  | values rows =>
    simp only [Query.children, forall_each, Node.measure, Node.expr.sizeOf_spec,
      Expr.tuple.sizeOf_spec, Query.values.sizeOf_spec]
    grind [→ List.sizeOf_lt_of_mem]

theorem DataSource.measure_node (d : DataSource) : d.node.measure < 1 + (1 + sizeOf d) := by
  cases d <;> simp [DataSource.node, Node.measure] <;> omega

theorem JoinCondition.measure_child (j : JoinCondition) :
    ∀ c ∈ j.children, c.2.measure < 1 + sizeOf j := by
  cases j with
  | on condition => simp [JoinCondition.children, Node.measure]
  | columns names =>
    simp only [JoinCondition.children, forall_each, Node.measure, Node.identifier.sizeOf_spec,
      JoinCondition.columns.sizeOf_spec]
    grind [→ List.sizeOf_lt_of_mem]

theorem Bound.sizeOf_offset {b : Bound} {e : Expr} (h : e ∈ b.offset?) : sizeOf e < sizeOf b := by
  cases b <;> simp_all [Bound.offset?]

theorem Node.measure_child (n : Node) : ∀ c ∈ n.children, c.2.measure < n.measure := by
  cases n with
  | expr e =>
    simp only [Node.children, Node.measure, Node.expr.sizeOf_spec]
    exact e.measure_child
  | query q =>
    simp only [Node.children, Node.measure, Node.query.sizeOf_spec]
    exact q.measure_child
  | switch s =>
    obtain ⟨branches, otherwise⟩ := s
    simp only [Node.children, List.forall_mem_append, forall_each, forall_maybe, Node.measure,
      Node.branch.sizeOf_spec, Node.expr.sizeOf_spec, Node.switch.sizeOf_spec,
      Switch.mk.sizeOf_spec]
    grind [→ List.sizeOf_lt_of_mem, → sizeOf_lt_of_mem_option]
  | branch b => cases b; simp [Node.children, Node.measure]; omega
  | select c =>
    obtain ⟨distinct, items⟩ := c
    simp only [Node.children, List.forall_mem_append, forall_each, forall_maybe, Node.measure,
      Node.selectItem.sizeOf_spec, Node.select.sizeOf_spec, SelectClause.mk.sizeOf_spec]
    grind [→ List.sizeOf_lt_of_mem, → sizeOf_lt_of_mem_option]
  | selectItem i =>
    obtain ⟨value, aliasName⟩ := i
    simp only [Node.children, List.forall_mem_cons, forall_maybe, Node.measure,
      Node.expr.sizeOf_spec, Node.identifier.sizeOf_spec, Node.selectItem.sizeOf_spec,
      SelectItem.mk.sizeOf_spec]
    grind [→ sizeOf_lt_of_mem_option]
  | distinct d =>
    cases d with
    | rows => simp [Node.children, Distinct.children]
    | on values => simp [Node.children, Distinct.children, Node.measure]; omega
  | fromClause f =>
    obtain ⟨source, joins⟩ := f
    simp only [Node.children, List.forall_mem_cons, forall_each, Node.measure,
      Node.source.sizeOf_spec, Node.join.sizeOf_spec, Node.fromClause.sizeOf_spec,
      From.mk.sizeOf_spec]
    grind [→ List.sizeOf_lt_of_mem]
  | join j =>
    obtain ⟨kind, lateral, source, condition⟩ := j
    cases condition with
    | none => simp [Node.children, Node.measure]; grind [sizeOf_source_pos]
    | some condition =>
      have inner := condition.measure_child
      simp [Node.children, Node.measure] at inner ⊢
      grind [sizeOf_source_pos]
  | source s =>
    obtain ⟨data, sourceAlias⟩ := s
    have inner := data.measure_node
    have whole : (Node.source ⟨data, sourceAlias⟩).measure =
        2 + sizeOf data + sizeOf sourceAlias := by
      simp [Node.measure]
      omega
    simp only [Node.children, List.forall_mem_cons, forall_maybe, whole]
    refine ⟨by omega, fun a h => ?_⟩
    have small := sizeOf_lt_of_mem_option h
    simp only [Node.measure, Node.sourceAlias.sizeOf_spec]
    omega
  | table t =>
    obtain ⟨namespaces, table⟩ := t
    simp only [Node.children, List.forall_mem_append, List.forall_mem_cons, forall_each,
      List.not_mem_nil, false_implies, implies_true, and_true, Node.measure,
      Node.identifier.sizeOf_spec, Node.table.sizeOf_spec, TableRef.mk.sizeOf_spec]
    grind [→ List.sizeOf_lt_of_mem]
  | sourceAlias a =>
    obtain ⟨name, columns⟩ := a
    simp only [Node.children, List.forall_mem_cons, forall_each, Node.measure,
      Node.identifier.sizeOf_spec, Node.sourceAlias.sizeOf_spec, SourceAlias.mk.sizeOf_spec]
    grind [→ List.sizeOf_lt_of_mem]
  | groupBy values | partitionBy values =>
    simp only [Node.children, forall_each, Node.measure, Node.expr.sizeOf_spec,
      Node.groupBy.sizeOf_spec, Node.partitionBy.sizeOf_spec]
    grind [→ List.sizeOf_lt_of_mem]
  | orderBy items =>
    simp only [Node.children, forall_each, Node.measure, Node.orderItem.sizeOf_spec,
      Node.orderBy.sizeOf_spec]
    grind [→ List.sizeOf_lt_of_mem]
  | orderItem i => cases i; simp [Node.children, Node.measure]; omega
  | overClause o => cases o <;> simp [Node.children, Over.children, Node.measure]
  | windowSpec w =>
    obtain ⟨partition, order, frame⟩ := w
    simp only [Node.children, List.forall_mem_append, forall_maybe, Node.measure,
      Node.partitionBy.sizeOf_spec, Node.orderBy.sizeOf_spec, Node.frame.sizeOf_spec,
      Node.windowSpec.sizeOf_spec, WindowSpec.mk.sizeOf_spec]
    grind [→ sizeOf_lt_of_mem_option]
  | frame f =>
    obtain ⟨unit, start, stop⟩ := f
    simp only [Node.children, List.forall_mem_append, forall_maybe, Node.measure,
      Node.expr.sizeOf_spec, Node.frame.sizeOf_spec, Frame.mk.sizeOf_spec]
    refine ⟨fun e h => ?_, fun e h => ?_⟩
    · have := Bound.sizeOf_offset h
      omega
    · obtain ⟨b, rfl, h⟩ := Option.bind_eq_some_iff.1 h
      have := Bound.sizeOf_offset h
      simp
      omega
  | windowDef w => cases w; simp [Node.children, Node.measure]; omega
  | windows ws =>
    simp only [Node.children, forall_each, Node.measure, Node.windowDef.sizeOf_spec,
      Node.windows.sizeOf_spec]
    grind [→ List.sizeOf_lt_of_mem]
  | commonTables w =>
    obtain ⟨recursive, tables⟩ := w
    simp only [Node.children, forall_each, Node.measure, Node.commonTable.sizeOf_spec,
      Node.commonTables.sizeOf_spec, With.mk.sizeOf_spec]
    grind [→ List.sizeOf_lt_of_mem]
  | commonTable t => cases t; simp [Node.children, Node.measure]; omega
  | limit l =>
    obtain ⟨limit, offset⟩ := l
    simp only [Node.children, List.forall_mem_append, forall_maybe, Node.measure,
      Node.expr.sizeOf_spec, Node.limit.sizeOf_spec, Limit.mk.sizeOf_spec]
    grind [→ sizeOf_lt_of_mem_option]
  | fetch f =>
    obtain ⟨position, count, unit⟩ := f
    simp only [Node.children, forall_maybe, Node.measure, Node.expr.sizeOf_spec,
      Node.fetch.sizeOf_spec, Fetch.mk.sizeOf_spec]
    grind [→ sizeOf_lt_of_mem_option]
  | filter condition | having condition => simp [Node.children, Node.measure]; omega
  | _ => simp [Node.children]

/-- The node and everything below it, each before its parts. -/
def Node.walk (n : Node) : List Node :=
  n :: n.children.attach.flatMap fun c => walk c.1.2
termination_by n.measure
decreasing_by exact Node.measure_child n c.1 c.2

theorem Node.walk_eq (n : Node) : n.walk = n :: n.children.flatMap fun c => c.2.walk := by
  rw [walk]
  conv => rhs; rw [← List.attach_map_subtype_val n.children, List.flatMap_map]

/-- What is below a node is walked in one stretch. -/
theorem Node.walk_infix (n : Node) : ∀ m ∈ n.walk, m.walk <:+: n.walk := by
  induction n using Node.walk.induct with
  | case1 n ih =>
    intro m mem
    rw [Node.walk_eq] at mem
    rcases List.mem_cons.1 mem with rfl | below
    · exact List.infix_rfl
    obtain ⟨c, child, inside⟩ := List.mem_flatMap.1 below
    have part : c.2.walk <:+: n.children.flatMap fun c => c.2.walk := by
      obtain ⟨before, after, split⟩ := List.append_of_mem child
      refine ⟨before.flatMap fun c => c.2.walk, after.flatMap fun c => c.2.walk, ?_⟩
      simp [split]
    rw [Node.walk_eq n]
    exact ((ih ⟨c, child⟩ m inside).trans part).trans (List.suffix_cons _ _).isInfix

end SqlQuery
