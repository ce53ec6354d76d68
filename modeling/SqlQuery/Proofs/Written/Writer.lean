import SqlQuery.Proofs.Written.Shape
import SqlQuery.Proofs.Written.Step

/-!
When a node is written, and why not: a text somewhere in it that is not valid, a window without
bounds, or too few levels.
-/

namespace SqlQuery

open Child Node

/-- What a step of a node is about: a part somewhere in it, or a window without bounds. -/
def Step.Within (n : Node) : Step → Prop
  | .visit m => n.Below m
  | .check text => n = .expr (.raw text) ∨ n.Below (.expr (.raw text))
  | .refuse e => ∃ w, n = .windowDef w ∧ w.spec.hasBounds = false ∧ e = .incompleteWindow w.name

theorem Node.Below.part {n m : Node} (h : m ∈ n.children.map Prod.snd) : n.Below m := by
  obtain ⟨c, mem, rfl⟩ := List.mem_map.1 h
  exact .child c.1 mem

variable {d : Dialect}

section

variable {n : Node}

theorem JoinCondition.steps_within (condition : JoinCondition)
    (below : ∀ c ∈ condition.children, n.Below c.2) : ∀ s ∈ condition.steps, s.Within n := by
  cases condition with
  | on e => simpa [JoinCondition.steps, Step.Within, Step.expr, JoinCondition.children] using below
  | columns names => simp [JoinCondition.steps]

theorem Step.within_content {e : Expr} (below : n.Below (.expr e)) : (content e).Within n := by
  cases e with
  | inlineQuery q => exact below.children ("query", .query q) (by simp [Node.children, Expr.children])
  | _ => exact below

theorem FunctionCall.steps_within (call : FunctionCall)
    (below : ∀ c ∈ call.children, n.Below c.2) : ∀ s ∈ call.steps, s.Within n := by
  simp only [FunctionCall.children, List.forall_mem_append, List.forall_mem_cons, forall_maybe]
    at below
  obtain ⟨⟨⟨_, name, _⟩, argument⟩, window⟩ := below
  simp only [FunctionCall.steps, List.forall_mem_cons, List.forall_mem_append, List.forall_mem_map,
    Option.mem_toList]
  exact ⟨⟨.inr name, fun e mem => Step.within_content (argument e mem)⟩, window⟩

theorem TypeRef.steps_within (ref : TypeRef) (below : ∀ c ∈ ref.children, n.Below c.2) :
    ∀ s ∈ ref.steps, s.Within n := by
  simp only [TypeRef.children, List.forall_mem_cons, forall_maybe] at below
  simp only [TypeRef.steps, List.forall_mem_cons, List.forall_mem_map, Option.mem_toList]
  exact ⟨.inr below.1, below.2⟩

theorem DataSource.steps_within (data : DataSource) (below : n.Below data.node) :
    ∀ s ∈ data.steps, s.Within n := by
  cases data with
  | table ref => simp [DataSource.steps]
  | subQuery q =>
    rw [DataSource.steps, List.forall_mem_singleton]
    exact below
  | function call => exact call.steps_within below.children

end

theorem Expr.steps_within (e : Expr) : ∀ s ∈ e.steps, s.Within (.expr e) := by
  cases e with
  | raw text => simp [Expr.steps, Step.Within]
  | function call => exact call.steps_within fun c mem => .child _ mem
  | type ref => exact ref.steps_within fun c mem => .child _ mem
  | array content =>
    have below : Below (.expr (.array content)) (.expr content) :=
      .part (by simp [Node.children, Expr.children])
    simpa [Expr.steps] using Step.within_content below
  | case subject arms =>
    cases subject <;>
      simp [Expr.steps, Step.Within, Step.expr, Below.part, Node.children, Expr.children, maybe, each]
  | _ =>
    simp +contextual [Expr.steps, Step.Within, Step.expr, Below.part, Node.children, Expr.children, each]

theorem Query.steps_within (q : Query) : ∀ s ∈ q.steps, s.Within (.query q) := by
  cases q with
  | simple s =>
    rw [Query.steps, List.forall_mem_map]
    exact fun c mem => .child c.1 mem
  | _ =>
    simp +contextual [Query.steps, Step.Within, Step.expr, Below.part, Node.children, Query.children, each]

namespace Node

/-- Every step of a node is about something in it. -/
theorem steps_within (n : Node) : ∀ s ∈ n.steps, s.Within n := by
  cases n with
  | expr e => exact e.steps_within
  | query q => exact q.steps_within
  | source s => exact s.data.steps_within (.part (by simp [children]))
  | join j =>
    have condition : ∀ c ∈ j.condition, ∀ s ∈ c.steps, s.Within (.join j) := by
      refine fun condition mem => condition.steps_within fun c inner => .child c.1 ?_
      simp only [children, List.mem_append, List.mem_flatMap, Option.mem_toList]
      exact .inr ⟨condition, mem, inner⟩
    simp only [steps, List.forall_mem_cons, List.forall_mem_flatMap, Option.mem_toList]
    exact ⟨.inr (.part (by simp [children])), .part (by simp [children]), condition⟩
  | distinct x =>
    cases x with
    | rows => simp [steps]
    | on values =>
      have listed : Below (.distinct (.on values)) (.expr (.list values)) :=
        .part (by simp [children, Distinct.children])
      have below := listed.children
      simp only [children, Expr.children, forall_each] at below
      rw [steps, List.forall_mem_map]
      exact below
  | overClause o => cases o <;> simp [steps, Step.Within, Below.part, children, Over.children]
  | windowDef w =>
    rw [steps]
    split <;> simp_all [Step.Within, Below.part, children]
  | windowSpec w =>
    rw [steps, List.forall_mem_map]
    exact fun c mem => .child c.1 mem
  | _ =>
    simp +contextual [steps, Step.Within, Step.expr, or_imp, forall_and, Below.part, children, maybe,
      each]

/-- A text in the tree that may not be written as it is, or a window without bounds. -/
inductive Spoils (n : Node) (e : WriteError) : Prop
  | text {text : String} (mem : .expr (.raw text) ∈ n.walk) (invalid : validate text = .error e)
  | window {w : WindowDef} (mem : .windowDef w ∈ n.walk) (unbounded : w.spec.hasBounds = false)
      (same : e = .incompleteWindow w.name)

theorem Spoils.of_walk {n m : Node} {e : WriteError} (mem : m ∈ n.walk) (h : m.Spoils e) :
    n.Spoils e := by
  have inside := (n.walk_infix m mem).subset
  cases h with
  | text mem invalid => exact .text (inside mem) invalid
  | window mem unbounded same => exact .window (inside mem) unbounded same

/-- A step that is not about a part fails for what the node itself holds. -/
theorem steps_own {n : Node} {check : Node → Except WriteError Unit} {s : Step} (mem : s ∈ n.steps) :
    (∃ m, n.Below m ∧ s.run check = check m) ∨ s.run check = .ok () ∨
      ∃ e, s.run check = .error e ∧ n.Spoils e := by
  have within := n.steps_within s mem
  cases s with
  | visit m => exact .inl ⟨m, within, rfl⟩
  | check text =>
    have inside : .expr (.raw text) ∈ n.walk := mem_walk.2 (within.imp_left Eq.symm)
    cases valid : validate text with
    | ok _ => exact .inr (.inl valid)
    | error e => exact .inr (.inr ⟨e, valid, .text inside valid⟩)
  | refuse e =>
    obtain ⟨w, rfl, unbounded, same⟩ := within
    exact .inr (.inr ⟨e, rfl, .window (mem_walk.2 (.inl rfl)) unbounded same⟩)

/-- A node with nothing that spoils it is written where its levels are allowed. -/
theorem checkAt_ok {limit levels : Nat} {n : Node} (clean : ∀ e, ¬ n.Spoils e)
    (levelled : n.measure < levels) : n.checkAt limit levels = .ok () := by
  induction levels generalizing n with
  | zero => cases levelled
  | succ levels ih =>
    refine Step.runAll_ok fun s mem => ?_
    obtain ⟨m, below, run⟩ | run | ⟨e, _, spoils⟩ := steps_own mem
    · have small := measure_lt below
      rw [run]
      exact ih (fun e spoils => clean e (spoils.of_walk (mem_walk.2 (.inr below)))) (by omega)
    · exact run
    · exact (clean e spoils).elim

/-- A node is not written for want of levels, or for something in it. -/
theorem checkAt_error {limit levels : Nat} {n : Node} {e : WriteError}
    (failed : n.checkAt limit levels = .error e) : e = .tooDeep limit ∨ n.Spoils e := by
  induction levels generalizing n with
  | zero => exact .inl (Except.error.inj failed).symm
  | succ levels ih =>
    rw [checkAt] at failed
    obtain ⟨s, mem, ran⟩ := Step.runAll_error failed
    obtain ⟨m, below, run⟩ | run | ⟨own, run, spoils⟩ := steps_own mem
    · exact (ih (run.symm.trans ran)).imp_right (.of_walk (mem_walk.2 (.inr below)))
    · cases run.symm.trans ran
    · cases run.symm.trans ran
      exact .inr spoils

theorem WellFormed.not_spoils {n : Node} (h : n.WellFormed) (e : WriteError) : ¬ n.Spoils e := by
  rintro (⟨mem, invalid⟩ | ⟨mem, unbounded, _⟩)
  · have plain : IsPlain _ := h _ mem
    rw [validate, plain] at invalid
    cases invalid
  · have bounds : WindowSpec.hasBounds _ = true := (h _ mem).2
    rw [unbounded] at bounds
    cases bounds

/-- A node of the shape that the grammar gives is written where its levels are allowed. -/
theorem writeAt_marks {limit levels : Nat} {n : Node} (wellFormed : n.WellFormed)
    (levelled : n.measure < levels) : n.writeAt d limit levels = .ok (n.marks d) := by
  rw [writeAt_eq, checkAt_ok wellFormed.not_spoils levelled]
  rfl

end Node

end SqlQuery
