import SqlQuery.Proofs.Tree.Erase
import SqlQuery.Writer.Node

/-!
Redundant aliases are not written, wherever they stand, and so it makes no difference to erase them.
-/

namespace SqlQuery

variable {d : Dialect} {write : Node → Draft}

/-- What is written of a node is the same once its redundant aliases are erased. -/
def Ignores (write : Node → Draft) : Prop := ∀ n : Node, write n.erase = write n

namespace Ignores

variable (h : Ignores write)

include h

theorem expr (e : Expr) : write (.expr e.erase) = write (.expr e) := h (.expr e)

theorem query (q : Query) : write (.query q.erase) = write (.query q) := h (.query q)

theorem typeName (ref : TypeRef) : write (.expr (.type ref.erase)) = write (.expr (.type ref)) :=
  h (.expr (.type ref))

theorem arms (s : Switch) : write (.switch s.erase) = write (.switch s) := h (.switch s)

theorem overClause (o : Over) : write (.overClause o.erase) = write (.overClause o) :=
  h (.overClause o)

theorem spec (w : WindowSpec) : write (.windowSpec w.erase) = write (.windowSpec w) :=
  h (.windowSpec w)

theorem source (s : Source) : write (.source s.erase) = write (.source s) := h (.source s)

theorem distinct (x : Distinct) : write (.distinct x.erase) = write (.distinct x) :=
  h (.distinct x)

theorem each {α : Type} (node : α → Node) {f : α → α} (same : ∀ a, (node a).erase = node (f a))
    (as : List α) : ((as.map f).mapM fun a => write (node a)) = as.mapM fun a => write (node a) := by
  rw [List.mapM_map]
  congr 1
  funext a
  exact (congrArg write (same a)).symm.trans (h (node a))

theorem exprs (es : List Expr) : writeExprs write (es.map Expr.erase) = writeExprs write es := by
  rw [writeExprs, h.each .expr fun _ => rfl, writeExprs]

theorem clauses (nodes : List (Option Node)) :
    writeClauses d write (nodes.map (Option.map Node.erase)) = writeClauses d write nodes := by
  have present : (nodes.map (Option.map Node.erase)).filterMap id =
      (nodes.filterMap id).map Node.erase := by
    rw [List.filterMap_map, List.map_filterMap]
    rfl
  rw [writeClauses, present, List.mapM_map, writeClauses]
  congr 2
  funext n
  exact h n

theorem content (e : Expr) : writeContent write e.erase = writeContent write e := by
  cases e with
  | inlineQuery q => exact h.query q
  | _ => exact h.expr _

theorem call (f : FunctionCall) : f.erase.writeWith write = f.writeWith write := by
  obtain ⟨namespaces, name, argument, window⟩ := f
  cases argument <;> cases window <;>
    simp [FunctionCall.erase, FunctionCall.writeWith, h.content, h.overClause]

theorem typeRef (ref : TypeRef) : ref.erase.writeWith write = ref.writeWith write := by
  obtain ⟨name, argument⟩ := ref
  cases argument <;> simp [TypeRef.erase, TypeRef.writeWith, h.expr]

theorem array (content : Expr) :
    (Expr.array content).erase.writeWith d write = (Expr.array content).writeWith d write := by
  have written := h.content content
  cases content <;> simp only [Expr.erase, Expr.writeWith, ← written]

theorem expression (e : Expr) : e.erase.writeWith d write = e.writeWith d write := by
  cases e with
  | literal _ | raw _ | column _ | parameter _ | specifiedString _ _ => rfl
  | function f => exact h.call f
  | unary operator operand => simp [Expr.erase, Expr.writeWith, writeUnary, h.expr]
  | array content => exact h.array content
  | tuple es | list es => simp [Expr.erase, Expr.writeWith, h.exprs]
  | case subject s => cases subject <;> simp [Expr.erase, Expr.writeWith, writeCase, h.expr, h.arms]
  | cast input ref =>
    have primary : input.erase.isPrimary = input.isPrimary := by cases input <;> rfl
    simp [Expr.erase, Expr.writeWith, writeCast, h.expr, h.typeName, primary]
  | type ref => exact h.typeRef ref
  | inlineQuery q => simp [Expr.erase, Expr.writeWith, writeSubQuery, h.query]
  | _ => simp [Expr.erase, Expr.writeWith, h.expr]

theorem queries (q : Query) : q.erase.writeWith d write = q.writeWith d write := by
  cases q with
  | simple s =>
    rw [Query.writeWith, ← h.clauses]
    cases s
    simp [Query.erase, Select.erase, Query.writeWith, Function.comp_def, Node.erase]
  | binary left operator right => simp [Query.erase, Query.writeWith, h.query]
  | values rows =>
    have each := h.each (fun row => .expr (.tuple row)) (f := List.map Expr.erase)
      (fun row => by simp [Node.erase, Expr.erase]) rows
    simp [Query.erase, Query.writeWith, each]

theorem data (x : DataSource) : x.erase.writeWith write = x.writeWith write := by
  cases x with
  | table ref => rfl
  | subQuery q => simp [DataSource.erase, DataSource.writeWith, writeSubQuery, h.query]
  | function f => exact h.call f

theorem bound (b : Bound) : b.erase.writeWith write = b.writeWith write := by
  cases b <;> simp [Bound.erase, Bound.writeWith, h.expr]

theorem node (n : Node) : n.erase.writeWith d write = n.writeWith d write := by
  cases n with
  | identifier _ | table _ | sourceAlias _ | lock _ => rfl
  | expr e => exact h.expression e
  | query q => exact h.queries q
  | switch s =>
    obtain ⟨branches, otherwise⟩ := s
    cases otherwise <;>
      simp [Node.erase, Node.writeWith, Switch.erase, Switch.writeWith, h.each .branch fun _ => rfl,
        h.expr]
  | branch b =>
    cases b
    simp [Node.erase, Node.writeWith, Branch.erase, Branch.writeWith, h.expr]
  | select c =>
    obtain ⟨distinct, items⟩ := c
    cases distinct <;>
      simp [Node.erase, Node.writeWith, SelectClause.erase, SelectClause.writeWith,
        h.each .selectItem fun _ => rfl, h.distinct]
  | selectItem i =>
    rw [Node.erase, Node.writeWith, SelectItem.writeWith, i.effectiveAlias_erase, i.erase_eq, h.expr]
    rfl
  | distinct x =>
    cases x <;> simp [Node.erase, Node.writeWith, Distinct.erase, Distinct.writeWith, h.exprs]
  | fromClause f =>
    cases f
    simp [Node.erase, Node.writeWith, From.erase, From.writeWith, h.source, h.each .join fun _ => rfl]
  | join j =>
    obtain ⟨kind, lateral, source, _ | ⟨condition | names⟩⟩ := j <;>
      simp [Node.erase, Node.writeWith, Join.erase, Join.writeWith, JoinCondition.erase,
        JoinCondition.writeWith, h.source, h.expr]
  | source s =>
    rw [Node.erase, Node.writeWith, Source.writeWith, s.effectiveAlias_erase, s.erase_eq, h.data]
    rfl
  | filter e | having e => simp [Node.erase, Node.writeWith, h.expr]
  | groupBy es | partitionBy es => simp [Node.erase, Node.writeWith, h.exprs]
  | orderBy is => simp [Node.erase, Node.writeWith, h.each .orderItem fun _ => rfl]
  | orderItem i =>
    cases i
    simp [Node.erase, Node.writeWith, OrderItem.erase, OrderItem.writeWith, h.expr]
  | overClause o => cases o <;> simp [Node.erase, Node.writeWith, Over.erase, Over.writeWith, h.spec]
  | windowSpec w =>
    rw [Node.writeWith, ← h.clauses]
    cases w
    simp [Node.erase, WindowSpec.erase, Node.writeWith, Function.comp_def]
  | frame f =>
    obtain ⟨unit, start, stop⟩ := f
    cases stop <;> simp [Node.erase, Node.writeWith, Frame.erase, Frame.writeWith, h.bound]
  | windowDef w =>
    obtain ⟨name, spec⟩ := w
    have bounds : spec.erase.hasBounds = spec.hasBounds := by
      cases spec
      simp [WindowSpec.erase, WindowSpec.hasBounds]
    simp [Node.erase, Node.writeWith, WindowDef.erase, WindowDef.writeWith, bounds, h.spec]
  | windows ws => simp [Node.erase, Node.writeWith, h.each .windowDef fun _ => rfl]
  | commonTables w =>
    cases w
    simp [Node.erase, Node.writeWith, With.erase, With.writeWith, h.each .commonTable fun _ => rfl]
  | commonTable t =>
    cases t
    simp [Node.erase, Node.writeWith, CommonTable.erase, CommonTable.writeWith, h.query]
  | limit l =>
    obtain ⟨limit, offset⟩ := l
    cases limit <;> cases offset <;>
      simp [Node.erase, Node.writeWith, Limit.erase, Limit.writeWith, writeKeyworded, h.expr]
  | fetch f =>
    obtain ⟨position, count, unit⟩ := f
    cases count <;> simp [Node.erase, Node.writeWith, Fetch.erase, Fetch.writeWith, h.expr]

end Ignores

theorem Node.writeAt_erase (d : Dialect) (limit levels : Nat) : Ignores (writeAt d limit levels) := by
  induction levels with
  | zero => exact fun _ => rfl
  | succ levels ih => exact ih.node

/-- A node is written as the same text, or refused with the same error, once its redundant aliases are
erased, and there is nothing to erase in it then. -/
theorem Node.write_erase (n : Node) (d : Dialect) (limit : Nat) :
    n.erase.write d limit = n.write d limit ∧ n.erase.erase = n.erase := by
  refine ⟨?_, n.erase_erase⟩
  rw [write, Node.writeAt_erase d limit limit n, write]

end SqlQuery
