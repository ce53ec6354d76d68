import Mathlib.Data.List.Forall2
import SqlQuery.Proofs.Tree.Below
import SqlQuery.Proofs.Written.Marks

/-!
What the writer does on a node, step by step: the texts that it checks and the parts that it writes,
in its own order. It gives the marks of the node if every step succeeds, and the error of the first
that fails otherwise.
-/

namespace SqlQuery

/-- What is done with a result changes no error. -/
theorem Except.bind_pure_eq_error {ε α β : Type} {r : Except ε α} {f : α → β} {e : ε} :
    (do let a ← r; return f a) = .error e ↔ r = .error e := by
  cases r with
  | error own => constructor <;> exact fun h => congrArg Except.error (Except.error.inj h)
  | ok a => exact ⟨nofun, nofun⟩

/-- A text that is written as it is, a part, or a node that is not written at all. -/
inductive Step where
  | check (text : String)
  | visit (n : Node)
  | refuse (e : WriteError)

/-- Whether a text may be written as it is. -/
def validate (text : String) : Except WriteError Unit := do
  let _ ← rawText text
  return ()

theorem rawText_eq (text : String) :
    rawText text = (do validate text; return Text.trim text) := by
  unfold validate rawText
  dsimp only
  split
  · rfl
  split <;> rfl

theorem rawText_of_validate {text : String} {e : WriteError} (h : validate text = .error e) :
    rawText text = .error e := by
  rw [rawText_eq]
  exact Except.bind_pure_eq_error.2 h

namespace Step

def expr (e : Expr) : Step := .visit (.expr e)

/-- A query in the place of a value is written by itself. -/
def content : Expr → Step
  | .inlineQuery query => .visit (.query query)
  | e => .expr e

def run (check : Node → Except WriteError Unit) : Step → Except WriteError Unit
  | .check text => validate text
  | .visit n => check n
  | .refuse e => .error e

/-- Takes the steps until one of them fails. -/
def runAll (check : Node → Except WriteError Unit) : List Step → Except WriteError Unit
  | [] => return ()
  | s :: steps => do
    s.run check
    runAll check steps

section

variable {check : Node → Except WriteError Unit}

@[simp] theorem run_check (text : String) : (Step.check text).run check = validate text := rfl

@[simp] theorem run_visit (n : Node) : (Step.visit n).run check = check n := rfl

@[simp] theorem run_refuse (e : WriteError) : (Step.refuse e).run check = .error e := rfl

@[simp] theorem run_expr (e : Expr) : (Step.expr e).run check = check (.expr e) := rfl

@[simp] theorem runAll_nil : runAll check [] = pure () := rfl

@[simp] theorem runAll_cons (s : Step) (steps : List Step) :
    runAll check (s :: steps) = (do s.run check; runAll check steps) := rfl

end

end Step

def FunctionCall.steps (call : FunctionCall) : List Step :=
  .check call.name :: call.argument.toList.map .content ++
    call.window.toList.map fun o => .visit (.overClause o)

def TypeRef.steps (ref : TypeRef) : List Step := .check ref.name :: ref.argument.toList.map .expr

def Expr.steps : Expr → List Step
  | .literal _ | .column _ | .parameter _ => []
  | .raw text => [.check text]
  | .function call => call.steps
  | .unary operator operand => [.check operator, .expr operand]
  | .binary left operator right => [.expr left, .check operator, .expr right]
  | .array content => [.content content]
  | .tuple values | .list values => values.map .expr
  | .case subject arms => .visit (.switch arms) :: subject.toList.map .expr
  | .cast input ref => [.expr input, .expr (.type ref)]
  | .paren inner => [.expr inner]
  | .between operand lower upper _ => [.expr operand, .expr lower, .expr upper]
  | .type ref => ref.steps
  | .specifiedString specifier _ => [.check specifier]
  | .inlineQuery query => [.visit (.query query)]

def Query.steps : Query → List Step
  | .simple s => s.children.map fun c => .visit c.2
  | .binary left operator right => [.visit (.query left), .check operator, .visit (.query right)]
  | .values rows => rows.map fun row => .expr (.tuple row)

def JoinCondition.steps : JoinCondition → List Step
  | .on condition => [.expr condition]
  | .columns _ => []

def DataSource.steps : DataSource → List Step
  | .table _ => []
  | .subQuery query => [.visit (.query query)]
  | .function call => call.steps

namespace Node

def steps : Node → List Step
  | .expr e => e.steps
  | .query q => q.steps
  | .identifier _ | .table _ | .sourceAlias _ | .lock _ => []
  | .switch s => s.branches.map (.visit ∘ .branch) ++ s.otherwise.toList.map .expr
  | .branch b => [.expr b.key, .expr b.value]
  | .select c => c.items.map (.visit ∘ .selectItem) ++ c.distinct.toList.map (.visit ∘ .distinct)
  | .selectItem i => [.expr i.value]
  | .distinct .rows => []
  | .distinct (.on values) => values.map .expr
  | .fromClause f => .visit (.source f.source) :: f.joins.map (.visit ∘ .join)
  | .join j =>
    .check j.kind :: .visit (.source j.source) :: j.condition.toList.flatMap JoinCondition.steps
  | .source s => s.data.steps
  | .filter condition | .having condition => [.expr condition]
  | .groupBy values | .partitionBy values => values.map .expr
  | .orderBy items => items.map (.visit ∘ .orderItem)
  | .orderItem i => [.expr i.value]
  | .overClause (.named _) => []
  | .overClause (.window spec) => [.visit (.windowSpec spec)]
  | .windowSpec w => (Node.windowSpec w).children.map fun c => .visit c.2
  | .frame f => f.start.offset?.toList.map .expr ++ (f.stop.bind Bound.offset?).toList.map .expr
  | .windowDef w =>
    if w.spec.hasBounds then [.visit (.windowSpec w.spec)] else [.refuse (.incompleteWindow w.name)]
  | .windows ws => ws.map (.visit ∘ .windowDef)
  | .commonTables w => w.tables.map (.visit ∘ .commonTable)
  | .commonTable t => [.visit (.query t.query)]
  | .limit l => l.limit.toList.map .expr ++ l.offset.toList.map .expr
  | .fetch f => f.count.toList.map .expr

/-- Whether a node with so many levels of nodes allowed is written, and the error if it is not. -/
def checkAt (limit : Nat) : Nat → Node → Except WriteError Unit
  | 0, _ => .error (.tooDeep limit)
  | n + 1, node => Step.runAll (checkAt limit n) node.steps

end Node

variable {d : Dialect} {write : Node → Draft} {check : Node → Except WriteError Unit}

namespace Step

theorem runAll_append (first more : List Step) :
    runAll check (first ++ more) = (do runAll check first; runAll check more) := by
  induction first with
  | nil => rw [List.nil_append, runAll, pure_bind]
  | cons s first ih => simp only [List.cons_append, runAll, ih, bind_assoc]

theorem runAll_ok {steps : List Step} (each : ∀ s ∈ steps, s.run check = .ok ()) :
    runAll check steps = .ok () := by
  induction steps with
  | nil => rfl
  | cons s steps ih =>
    rw [runAll, each s List.mem_cons_self, ih fun t mem => each t (List.mem_cons_of_mem s mem)]
    rfl

/-- The error is the one of a step. -/
theorem runAll_error {steps : List Step} {e : WriteError} (failed : runAll check steps = .error e) :
    ∃ s ∈ steps, s.run check = .error e := by
  induction steps with
  | nil => cases failed
  | cons s steps ih =>
    rw [runAll] at failed
    cases ran : s.run check with
    | error own =>
      rw [ran] at failed
      exact ⟨s, List.mem_cons_self, ran.trans failed⟩
    | ok _ =>
      rw [ran] at failed
      obtain ⟨t, mem, run⟩ := ih failed
      exact ⟨t, List.mem_cons_of_mem s mem, run⟩

theorem visits_cons (o : Option Node) (nodes : List (Option Node)) :
    ((o :: nodes).filterMap id).map visit =
      o.toList.map visit ++ (nodes.filterMap id).map visit := by
  cases o <;> rfl

theorem visits_maybe {α : Type} (role : String) (node : α → Node) (a : Option α) :
    (Child.maybe role node a).map (fun c => visit c.2) = (a.map node).toList.map visit := by
  cases a <;> rfl

/-- Parts that are written one after another. -/
theorem mapM_eq {α β : Type} (step : α → Step) {f : α → Except WriteError β} {g : α → β}
    (each : ∀ a, f a = (do (step a).run check; return g a)) (as : List α) :
    as.mapM f = (do runAll check (as.map step); return as.map g) := by
  induction as with
  | nil => rfl
  | cons a as ih => simp only [List.mapM_cons, each, ih, List.map_cons, runAll, bind_assoc, pure_bind]

end Step

/-- A writer of parts that gives their marks where it gives anything. -/
def Writes (d : Dialect) (write : Node → Draft) (check : Node → Except WriteError Unit) : Prop :=
  ∀ n, write n = (do check n; return n.marks d)

namespace Writes

variable (h : Writes d write check)

include h

theorem expr (e : Expr) :
    write (.expr e) = (do (Step.expr e).run check; return e.marks d) := h _

theorem exprs (es : List Expr) :
    writeExprs write es =
      (do Step.runAll check (es.map .expr); return commaSeparated (exprsMarks d es)) := by
  simp only [writeExprs, Step.mapM_eq .expr h.expr es, exprsMarks_eq, bind_assoc, pure_bind]

theorem content (e : Expr) :
    writeContent write e = (do (Step.content e).run check; return argumentMarks d (some e)) := by
  cases e <;> exact h _

theorem call (call : FunctionCall) :
    call.writeWith write = (do Step.runAll check call.steps; return call.marks d) := by
  obtain ⟨namespaces, name, argument, window⟩ := call
  have windowed (o : Over) : write (.overClause o) = (do check (.overClause o); return o.marks d) := h _
  cases argument with
  | none =>
    cases window <;>
      simp [FunctionCall.writeWith, FunctionCall.steps, FunctionCall.marks, argumentMarks,
        windowMarks, rawText_eq, windowed]
  | some e =>
    have argued := h.content e
    cases window <;>
      simp [FunctionCall.writeWith, FunctionCall.steps, FunctionCall.marks, windowMarks, rawText_eq,
        windowed, argued]

theorem typeRef (ref : TypeRef) :
    ref.writeWith write = (do Step.runAll check ref.steps; return ref.marks d) := by
  obtain ⟨name, argument⟩ := ref
  cases argument <;>
    simp [TypeRef.writeWith, TypeRef.steps, TypeRef.marks, writeRaw, rawText_eq, rawMark, h.expr]

theorem bound (b : Bound) :
    b.writeWith write =
      (do Step.runAll check (b.offset?.toList.map .expr); return b.marks d) := by
  cases b <;> simp [Bound.writeWith, Bound.offset?, Bound.marks, h.expr] <;> rfl

theorem data (data : DataSource) :
    data.writeWith write = (do Step.runAll check data.steps; return data.marks d) := by
  cases data with
  | table ref => rfl
  | subQuery q =>
    have query : write (.query q) = (do check (.query q); return q.marks d) := h _
    simp [DataSource.writeWith, DataSource.steps, DataSource.marks, writeSubQuery, query]
  | function call => exact h.call call

theorem joinCondition (c : JoinCondition) :
    c.writeWith write = (do Step.runAll check c.steps; return c.marks d) := by
  cases c with
  | on e => simp [JoinCondition.writeWith, JoinCondition.steps, JoinCondition.marks, h.expr]
  | columns names => rfl

theorem writeExpr (e : Expr) :
    e.writeWith d write = (do Step.runAll check e.steps; return e.marks d) := by
  have query (q : Query) : write (.query q) = (do check (.query q); return q.marks d) := h _
  have arms (s : Switch) : write (.switch s) = (do check (.switch s); return s.marks d) := h _
  cases e with
  | literal value | column ref | parameter name => rfl
  | raw text => simp [Expr.writeWith, Expr.steps, Expr.marks, writeRaw, rawText_eq, rawMark]
  | function call => exact h.call call
  | unary operator operand =>
    simp only [Expr.writeWith, Expr.steps, Expr.marks, writeUnary, unaryMarks, rawText_eq, h.expr]
    split <;> simp_all
  | binary left operator right =>
    simp [Expr.writeWith, Expr.steps, Expr.marks, writeRaw, rawText_eq, rawMark, h.expr]
  | between operand lower upper negated =>
    simp [Expr.writeWith, Expr.steps, Expr.marks, betweenWord, h.expr]
  | cast input ref =>
    simp [Expr.writeWith, Expr.steps, Expr.marks, writeCast, castMarks, h.expr]
    split <;> simp
  | case subject s =>
    cases subject <;> simp [Expr.writeWith, Expr.steps, Expr.marks, writeCase, h.expr, arms]
  | array content =>
    have written := h.content content
    cases content <;> simp [Expr.writeWith, Expr.steps, Expr.marks, written, argumentMarks]
  | tuple es | list es => simp [Expr.writeWith, Expr.steps, Expr.marks, h.exprs]
  | type ref => exact h.typeRef ref
  | specifiedString specifier value =>
    simp [Expr.writeWith, Expr.steps, Expr.marks, writeSpecified, specifiedMarks, rawText_eq]
    split <;> simp
  | paren inner => simp [Expr.writeWith, Expr.steps, Expr.marks, h.expr]
  | inlineQuery q => simp [Expr.writeWith, Expr.steps, Expr.marks, writeSubQuery, query]

end Writes

/-- Something is written, as where a text begins with a keyword. -/
def Mark.IsWritten (d : Dialect) (ms : List Mark) : Prop := Mark.spellAll d ms ≠ []

theorem Mark.IsWritten.plain (text : String) (nonempty : text ≠ "") (more : List Mark) :
    Mark.IsWritten d (.plain text :: more) := by
  intro empty
  have chars : text.toList = [] := (List.append_eq_nil_iff.1 empty).1
  exact nonempty (String.ext (by simpa using chars))

theorem Mark.IsWritten.keyword (text : String) (nonempty : text ≠ "") (parts : List (List Mark)) :
    Mark.IsWritten d (spaced ([.plain text] :: parts)) := by
  cases parts with
  | nil => exact .plain text nonempty _
  | cons part parts =>
    rw [spaced_cons_cons]
    exact .plain text nonempty _

/-- Begins with a keyword if it is written at all. -/
def Node.isClause : Node → Bool
  | .commonTables _ | .select _ | .fromClause _ | .filter _ | .groupBy _ | .having _ | .windows _
  | .orderBy _ | .limit _ | .fetch _ | .lock _ | .partitionBy _ | .frame _ => true
  | _ => false

theorem Node.isWritten_clause {n : Node} (h : n.isClause) (nonempty : n.marks d ≠ []) :
    Mark.IsWritten d (n.marks d) := by
  have keyword := @Mark.IsWritten.keyword d
  cases n with
  | commonTables w => cases w; exact keyword "with" (by decide) _
  | select c => obtain ⟨_ | _, _⟩ := c <;> exact keyword "select" (by decide) _
  | fromClause f => cases f; exact keyword "from" (by decide) _
  | filter e => exact keyword "where" (by decide) _
  | groupBy es => exact keyword "group by" (by decide) _
  | having e => exact keyword "having" (by decide) _
  | windows ws => exact keyword "window" (by decide) _
  | orderBy is => exact keyword "order by" (by decide) _
  | limit l =>
    obtain ⟨_ | _, _ | _⟩ := l
    · exact (nonempty rfl).elim
    · exact .plain "offset" (by decide) _
    · exact .plain "limit" (by decide) _
    · exact .plain "limit" (by decide) _
  | fetch f => obtain ⟨_, _ | _, _⟩ := f <;> exact keyword "fetch" (by decide) _
  | lock mode => exact keyword "for" (by decide) _
  | partitionBy es => exact keyword "partition by" (by decide) _
  | frame f =>
    obtain ⟨unit, _, _ | _⟩ := f <;> exact keyword unit.text (by cases unit <;> decide) _
  | _ => cases h

/-- A clause that has these marks, or is absent. -/
structure IsClause (d : Dialect) (o : Option Node) (part : List Mark) : Prop where
  marks : part = (o.map (Node.marks d)).getD []
  kind : ∀ n ∈ o, n.isClause

theorem IsClause.optional {α : Type} {o : Option α} {node : α → Node} {f : Option α → List Mark}
    (absent : f none = []) (same : ∀ a, f (some a) = (node a).marks d)
    (kind : ∀ a, (node a).isClause) : IsClause d (o.map node) (f o) := by
  cases o with
  | none => exact ⟨absent, nofun⟩
  | some a => exact ⟨same a, fun n mem => Option.some.inj mem ▸ kind a⟩

/-- Clauses without marks and clauses that are written as nothing are the same. -/
theorem clauseMarks_eq {nodes : List (Option Node)} {parts : List (List Mark)}
    (each : List.Forall₂ (IsClause d) nodes parts) :
    clauseMarks parts = spaced (((nodes.filterMap id).map (Node.marks d)).filter fun part =>
      !(Mark.spellAll d part).isEmpty) := by
  rw [clauseMarks]
  congr 1
  induction each with
  | nil => rfl
  | @cons o part _ _ clause _ ih =>
    obtain ⟨rfl, kind⟩ := clause
    cases o with
    | none => simp [ih]
    | some n =>
      by_cases empty : n.marks d = []
      · simp [empty, Mark.spellAll, ih]
      · have spelled : Mark.spellAll d (n.marks d) ≠ [] := n.isWritten_clause (kind n rfl) empty
        simp [empty, spelled, ih]

namespace Writes

variable (h : Writes d write check)

include h

/-- Clauses are written in their order, and what is absent not at all. -/
theorem clauses {nodes : List (Option Node)} {parts : List (List Mark)}
    (each : List.Forall₂ (IsClause d) nodes parts) :
    writeClauses d write nodes =
      (do Step.runAll check ((nodes.filterMap id).map .visit); return clauseMarks parts) := by
  rw [writeClauses, Step.mapM_eq .visit h, clauseMarks_eq each, bind_assoc]
  simp

theorem select (s : Select) :
    (Query.simple s).writeWith d write =
      (do Step.runAll check (Query.simple s).steps; return (Query.simple s).marks d) := by
  obtain ⟨w, c, f, e, es, g, ws, is, l, x, mode⟩ := s
  rw [Query.writeWith, Query.marks, Select.marks, h.clauses <|
    .cons (.optional (f := withMarks d) rfl (fun _ => rfl) fun _ => rfl) <|
    .cons ⟨rfl, fun n mem => Option.some.inj mem ▸ rfl⟩ <|
    .cons (.optional (f := fromMarks d) rfl (fun _ => rfl) fun _ => rfl) <|
    .cons (.optional (f := keywordedMarks d "where") rfl (fun _ => rfl) fun _ => rfl) <|
    .cons (.optional (f := valuesMarks d "group by") rfl (fun _ => rfl) fun _ => rfl) <|
    .cons (.optional (f := keywordedMarks d "having") rfl (fun _ => rfl) fun _ => rfl) <|
    .cons (.optional (f := windowsMarks d) rfl (fun _ => rfl) fun _ => rfl) <|
    .cons (.optional (f := orderMarks d) rfl (fun _ => rfl) fun _ => rfl) <|
    .cons (.optional (f := limitMarks d) rfl (fun _ => rfl) fun _ => rfl) <|
    .cons (.optional (f := fetchMarks d) rfl (fun _ => rfl) fun _ => rfl) <|
    .cons (.optional (f := lockMarks) rfl (fun _ => rfl) fun _ => rfl) .nil]
  simp only [Query.steps, Select.children, List.map_append, Step.visits_cons, Step.visits_maybe,
    List.append_assoc, List.filterMap_nil, List.map_nil, List.append_nil]
  rfl

theorem query (q : Query) :
    q.writeWith d write = (do Step.runAll check q.steps; return q.marks d) := by
  have query (q : Query) : write (.query q) = (do check (.query q); return q.marks d) := h _
  cases q with
  | simple s => exact h.select s
  | binary left operator right =>
    simp [Query.writeWith, Query.steps, Query.marks, writeRaw, rawText_eq, rawMark, query]
  | values rows =>
    have each := Step.mapM_eq (fun row => .expr (.tuple row)) (fun row => h.expr (.tuple row)) rows
    simp [Query.writeWith, Query.steps, Query.marks, rowsMarks_eq, each]

theorem windowSpec (w : WindowSpec) :
    (Node.windowSpec w).writeWith d write =
      (do Step.runAll check (Node.windowSpec w).steps; return w.marks d) := by
  obtain ⟨values, items, f⟩ := w
  rw [Node.writeWith, WindowSpec.marks, h.clauses <|
    .cons (.optional (f := valuesMarks d "partition by") rfl (fun _ => rfl) fun _ => rfl) <|
    .cons (.optional (f := orderMarks d) rfl (fun _ => rfl) fun _ => rfl) <|
    .cons (.optional (f := frameMarks d) rfl (fun _ => rfl) fun _ => rfl) .nil]
  simp only [Node.steps, Node.children, List.map_append, Step.visits_cons, Step.visits_maybe,
    List.append_assoc, List.filterMap_nil, List.map_nil, List.append_nil]

theorem each {α : Type} (node : α → Node) (as : List α) :
    (as.mapM fun a => write (node a)) =
      (do Step.runAll check (as.map (.visit ∘ node)); return as.map fun a => (node a).marks d) :=
  Step.mapM_eq (.visit ∘ node) (fun a => h (node a)) as

/-- Whatever its parts give, a node gives its marks where all its steps succeed. -/
theorem node (n : Node) :
    n.writeWith d write = (do Step.runAll check n.steps; return n.marks d) := by
  cases n with
  | expr e => exact h.writeExpr e
  | query q => exact h.query q
  | identifier name | table ref | sourceAlias a | lock mode => rfl
  | switch s =>
    obtain ⟨branches, otherwise⟩ := s
    cases otherwise <;>
      simp [Node.writeWith, Switch.writeWith, Node.steps, Node.marks, Switch.marks, branchesMarks_eq,
        h.each .branch, h.expr, Step.runAll_append]
  | branch b =>
    cases b
    simp [Node.writeWith, Branch.writeWith, Node.steps, Node.marks, Branch.marks, h.expr]
  | select c =>
    obtain ⟨distinct, items⟩ := c
    cases distinct <;>
      simp [Node.writeWith, SelectClause.writeWith, Node.steps, Node.marks, SelectClause.marks,
        itemsMarks_eq, h.each .selectItem, h (.distinct _), Step.runAll_append]
  | selectItem i =>
    obtain ⟨value, aliasName⟩ := i
    simp only [Node.writeWith, SelectItem.writeWith, Node.steps, Node.marks, SelectItem.marks, h.expr]
    cases SelectItem.effectiveAlias ⟨value, aliasName⟩ <;> simp
  | distinct x =>
    cases x with
    | rows => rfl
    | on es =>
      simp [Node.writeWith, Distinct.writeWith, Node.steps, Node.marks, Distinct.marks, h.exprs]
  | fromClause f =>
    cases f
    simp [Node.writeWith, From.writeWith, Node.steps, Node.marks, From.marks, joinsMarks_eq,
      h (.source _), h.each .join]
  | join j =>
    obtain ⟨kind, lateral, source, condition⟩ := j
    cases condition <;>
      simp [Node.writeWith, Join.writeWith, Node.steps, Node.marks, Join.marks, optionalWord,
        writeRaw, rawText_eq, rawMark, h (.source _), h.joinCondition]
  | source s =>
    obtain ⟨data, sourceAlias⟩ := s
    simp only [Node.writeWith, Source.writeWith, Node.steps, Node.marks, Source.marks, h.data]
    cases Source.effectiveAlias ⟨data, sourceAlias⟩ <;> simp
  | filter e | having e =>
    simp [Node.writeWith, Node.steps, Node.marks, keywordedMarks, h.expr]
  | groupBy es | partitionBy es =>
    simp [Node.writeWith, Node.steps, Node.marks, valuesMarks, h.exprs]
  | orderBy items =>
    simp [Node.writeWith, Node.steps, Node.marks, orderMarks, orderItemsMarks_eq,
      h.each .orderItem]
  | orderItem i =>
    cases i
    simp [Node.writeWith, OrderItem.writeWith, Node.steps, Node.marks, OrderItem.marks, h.expr]
  | overClause o =>
    cases o with
    | named name => rfl
    | window spec =>
      simp [Node.writeWith, Over.writeWith, Node.steps, Node.marks, Over.marks, h (.windowSpec _)]
  | windowSpec w => exact h.windowSpec w
  | frame f =>
    obtain ⟨unit, start, stop⟩ := f
    cases stop <;>
      simp [Node.writeWith, Frame.writeWith, Node.steps, Node.marks, Frame.marks, h.bound,
        Step.runAll_append]
  | windowDef w =>
    obtain ⟨name, spec⟩ := w
    simp only [Node.writeWith, WindowDef.writeWith, Node.steps, h (.windowSpec _)]
    cases spec.hasBounds with
    | true => simp [Node.marks, WindowDef.marks]
    | false => rfl
  | windows ws =>
    simp [Node.writeWith, Node.steps, Node.marks, windowsMarks, windowDefsMarks_eq,
      h.each .windowDef]
  | commonTables w =>
    cases w
    simp [Node.writeWith, With.writeWith, Node.steps, Node.marks, With.marks, tablesMarks_eq,
      optionalWord, h.each .commonTable]
  | commonTable t =>
    cases t
    simp [Node.writeWith, CommonTable.writeWith, Node.steps, Node.marks, CommonTable.marks,
      h (.query _)]
    rfl
  | limit l =>
    obtain ⟨limit, offset⟩ := l
    cases limit <;> cases offset <;>
      simp [Node.writeWith, Limit.writeWith, writeKeyworded, Node.steps, Node.marks, Limit.marks,
        clauseMarks, keywordedMarks, spaced_cons_cons, h.expr]
  | fetch f =>
    obtain ⟨position, count, unit⟩ := f
    cases count <;>
      simp [Node.writeWith, Fetch.writeWith, Node.steps, Node.marks, Fetch.marks, h.expr]

end Writes

namespace Node

/-- What the writer does with a node: its steps decide whether it is written, and its marks are what
is written. -/
theorem writeAt_eq (limit levels : Nat) (n : Node) :
    n.writeAt d limit levels = (do n.checkAt limit levels; return n.marks d) := by
  induction levels generalizing n with
  | zero => rfl
  | succ levels ih =>
    have parts : Writes d (writeAt d limit levels) (checkAt limit levels) := ih
    exact parts.node n

theorem writeAt_error_iff {limit levels : Nat} {n : Node} {e : WriteError} :
    n.writeAt d limit levels = .error e ↔ n.checkAt limit levels = .error e := by
  rw [writeAt_eq]
  exact Except.bind_pure_eq_error

theorem write_error_iff {limit : Nat} {n : Node} {e : WriteError} :
    n.write d limit = .error e ↔ n.checkAt limit limit = .error e := by
  rw [write]
  exact Except.bind_pure_eq_error.trans writeAt_error_iff

theorem write_ok_iff {limit : Nat} {n : Node} {out : String} :
    n.write d limit = .ok out ↔
      n.checkAt limit limit = .ok () ∧ String.ofList (Mark.spellAll d (n.marks d)) = out := by
  rw [write, writeAt_eq]
  cases n.checkAt limit limit with
  | error own => exact ⟨nofun, fun h => nomatch h.1⟩
  | ok _ => exact ⟨fun h => ⟨rfl, Except.ok.inj h⟩, fun h => congrArg _ h.2⟩

end Node

end SqlQuery
