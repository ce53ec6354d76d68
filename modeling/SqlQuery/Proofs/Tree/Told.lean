import SqlQuery.Proofs.Json.Same
import SqlQuery.Proofs.Tree.Below
import SqlQuery.Proofs.Tree.Json

/-!
The JSON form of a query says all about it: no two queries have the same form. Each form tells what
it is the form of as soon as the forms of the parts do.
-/

namespace SqlQuery

open Child Json

/-! What has no nodes as parts. -/

theorem Literal.told (l : Literal) : Tells toJson l := by
  intro m
  cases l <;> cases m <;> simp [toJson]

theorem ColumnRef.told (ref : ColumnRef) : Tells toJson ref := by
  intro ref'
  cases ref
  cases ref'
  simp [toJson]

theorem TableRef.told (ref : TableRef) : Tells toJson ref := by
  intro ref'
  cases ref
  cases ref'
  simp [toJson]

theorem SourceAlias.told (a : SourceAlias) : Tells toJson a := by
  intro a'
  cases a
  cases a'
  simp [toJson]

theorem SortDirection.told (d : SortDirection) : Tells toJson d := by
  intro d'
  cases d <;> cases d' <;> simp [toJson]

theorem NullsPosition.told (p : NullsPosition) : Tells toJson p := by
  intro p'
  cases p <;> cases p' <;> simp [toJson]

theorem FrameUnit.told (u : FrameUnit) : Tells toJson u := by
  intro u'
  cases u <;> cases u' <;> simp [toJson]

theorem FetchPosition.told (p : FetchPosition) : Tells toJson p := by
  intro p'
  cases p <;> cases p' <;> simp [toJson]

theorem FetchUnit.told (u : FetchUnit) : Tells toJson u := by
  intro u'
  cases u <;> cases u' <;> simp [toJson]

theorem LockMode.told (mode : LockMode) : Tells toJson mode := by
  intro mode'
  cases mode <;> cases mode' <;> simp [toJson]

/-! Values, calls and windows. -/

theorem exprOrNull_told {o : Option Expr} (inner : ∀ e ∈ o, Tells Expr.toJson e) :
    Tells (ofOption Expr.toJson) o :=
  .ofOption inner (by rintro ⟨⟩ <;> nofun)

theorem TypeRef.told {ref : TypeRef} (argument : ∀ e ∈ ref.argument, Tells Expr.toJson e) :
    Tells toJson ref := by
  intro ref'
  have argument := exprOrNull_told argument
  cases ref
  cases ref'
  simp [toJson, argument _]

theorem Branch.told {b : Branch} (key : Tells Expr.toJson b.key)
    (value : Tells Expr.toJson b.value) : Tells toJson b := by
  intro b'
  cases b
  cases b'
  simp [toJson, key _, value _]

theorem Switch.told {s : Switch} (branches : ∀ b ∈ s.branches, Tells Branch.toJson b)
    (otherwise : ∀ e ∈ s.otherwise, Tells Expr.toJson e) : Tells toJson s := by
  intro s'
  have otherwise := exprOrNull_told otherwise
  cases s
  cases s'
  simp [toJson, same_array_map branches, otherwise _]

theorem Bound.told {b : Bound} (offset : ∀ e ∈ b.offset?, Tells Expr.toJson e) :
    Tells toJson b := by
  intro b'
  cases b with
  | preceding e | following e => cases b' <;> simp [toJson, offset e rfl _]
  | _ => cases b' <;> simp [toJson]

theorem Frame.told {f : Frame} (start : Tells Bound.toJson f.start)
    (stop : ∀ b ∈ f.stop, Tells Bound.toJson b) : Tells toJson f := by
  intro f'
  have stop := Tells.ofOption stop (by rintro ⟨⟩ <;> nofun)
  cases f
  cases f'
  simp [toJson_eq, FrameUnit.told _ _, start _, stop _]

theorem OrderItem.told {i : OrderItem} (value : Tells Expr.toJson i.value) : Tells toJson i := by
  intro i'
  have nulls := Tells.ofOption (fun p (_ : p ∈ i.nulls) => p.told) (by rintro ⟨⟩ <;> nofun)
  cases i
  cases i'
  simp [toJson, value _, SortDirection.told _ _, nulls _]

theorem WindowSpec.told {w : WindowSpec}
    (partition : ∀ es ∈ w.partition, ∀ e ∈ es, Tells Expr.toJson e)
    (order : ∀ is ∈ w.order, ∀ i ∈ is, Tells OrderItem.toJson i)
    (frame : ∀ f ∈ w.frame, Tells Frame.toJson f) : Tells toJson w := by
  intro w'
  have partition := Tells.ofOption (fun es mem => .listed "values" (partition es mem)) nofun
  have order := Tells.ofOption (fun is mem => .listed "items" (order is mem)) nofun
  have frame := Tells.ofOption frame (by simp [Frame.toJson_eq])
  cases w
  cases w'
  simp [toJson_eq, partition _, order _, frame _]

theorem Over.told {o : Over} (spec : ∀ w, o = .window w → Tells WindowSpec.toJson w) :
    Tells toJson o := by
  intro o'
  cases o with
  | named name => cases o' <;> simp [toJson]
  | window w => cases o' <;> simp [toJson, spec w rfl _]

theorem FunctionCall.told {call : FunctionCall}
    (argument : ∀ e ∈ call.argument, Tells Expr.toJson e)
    (window : ∀ o ∈ call.window, Tells Over.toJson o) : Tells toJson call := by
  intro call'
  have argument := exprOrNull_told argument
  have window := Tells.ofOption window (by rintro ⟨⟩ <;> nofun)
  cases call
  cases call'
  simp [toJson_eq, argument _, window _]

/-! Clauses. -/

theorem CommonTable.told {t : CommonTable} (query : Tells Query.toJson t.query) :
    Tells toJson t := by
  intro t'
  have materialized := Tells.ofOption (fun b (_ : b ∈ t.materialized) b' => same_boolean) nofun
  cases t
  cases t'
  simp [toJson, SourceAlias.told _ _, materialized _, query _]

theorem With.told {w : With} (tables : ∀ t ∈ w.tables, Tells CommonTable.toJson t) :
    Tells toJson w := by
  intro w'
  cases w
  cases w'
  simp [toJson, same_array_map tables]

theorem Distinct.told {d : Distinct} (on : ∀ es, d = .on es → Tells Expr.toJson (.list es)) :
    Tells toJson d := by
  intro d'
  cases d with
  | rows => cases d' <;> simp [toJson]
  | on es =>
    cases d' with
    | rows => simp [toJson]
    | on es' => simpa [toJson, Expr.toJson] using on es rfl (.list es')

theorem SelectItem.told {i : SelectItem} (value : Tells Expr.toJson i.value) : Tells toJson i := by
  intro i'
  have aliasName := Tells.ofOption (fun s (_ : s ∈ i.aliasName) s' => same_string) nofun
  cases i
  cases i'
  simp [toJson, value _, aliasName _]

theorem SelectClause.told {c : SelectClause} (distinct : ∀ d ∈ c.distinct, Tells Distinct.toJson d)
    (items : ∀ i ∈ c.items, Tells SelectItem.toJson i) : Tells toJson c := by
  intro c'
  have distinct := Tells.ofOption distinct (by rintro ⟨⟩ <;> nofun)
  cases c
  cases c'
  simp [toJson_eq, distinct _, same_array_map items]

theorem DataSource.told {d : DataSource} (query : ∀ q, d = .subQuery q → Tells Query.toJson q)
    (call : ∀ c, d = .function c → Tells FunctionCall.toJson c) : Tells toJson d := by
  intro d'
  cases d with
  | table ref => cases d' <;> simp [toJson, ref.told _]
  | subQuery q => cases d' <;> simp [toJson, query q rfl _]
  | function c => cases d' <;> simp [toJson, call c rfl _]

theorem Source.told {s : Source} (data : Tells DataSource.toJson s.data) : Tells toJson s := by
  intro s'
  have sourceAlias := Tells.ofOption (fun a (_ : a ∈ s.sourceAlias) => a.told) nofun
  cases s
  cases s'
  simp [toJson, data _, sourceAlias _]

theorem JoinCondition.told {c : JoinCondition} (on : ∀ e, c = .on e → Tells Expr.toJson e) :
    Tells toJson c := by
  intro c'
  cases c with
  | on e => cases c' <;> simp [toJson, on e rfl _]
  | columns ns => cases c' <;> simp [toJson]

theorem Join.told {j : Join} (source : Tells Source.toJson j.source)
    (condition : ∀ c ∈ j.condition, Tells JoinCondition.toJson c) : Tells toJson j := by
  intro j'
  have condition := Tells.ofOption condition (by rintro ⟨⟩ <;> nofun)
  cases j
  cases j'
  simp [toJson_eq, source _, condition _]

theorem From.told {f : From} (source : Tells Source.toJson f.source)
    (joins : ∀ j ∈ f.joins, Tells Join.toJson j) : Tells toJson f := by
  intro f'
  cases f
  cases f'
  simp [toJson, source _, same_array_map joins]

theorem WindowDef.told {w : WindowDef} (spec : Tells WindowSpec.toJson w.spec) :
    Tells toJson w := by
  intro w'
  cases w
  cases w'
  simp [toJson, spec _]

theorem Limit.told {l : Limit} (limit : ∀ e ∈ l.limit, Tells Expr.toJson e)
    (offset : ∀ e ∈ l.offset, Tells Expr.toJson e) : Tells toJson l := by
  intro l'
  have limit := exprOrNull_told limit
  have offset := exprOrNull_told offset
  cases l
  cases l'
  simp [toJson, limit _, offset _]

theorem Fetch.told {f : Fetch} (count : ∀ e ∈ f.count, Tells Expr.toJson e) : Tells toJson f := by
  intro f'
  have count := exprOrNull_told count
  cases f
  cases f'
  simp [toJson, FetchPosition.told _ _, count _, FetchUnit.told _ _]

theorem Select.told {s : Select} (commonTables : ∀ w ∈ s.commonTables, Tells With.toJson w)
    (clause : Tells SelectClause.toJson s.clause) (source : ∀ f ∈ s.source, Tells From.toJson f)
    (condition : ∀ e ∈ s.condition, Tells Expr.toJson e)
    (groupBy : ∀ es ∈ s.groupBy, ∀ e ∈ es, Tells Expr.toJson e)
    (having : ∀ e ∈ s.having, Tells Expr.toJson e)
    (windows : ∀ ws ∈ s.windows, ∀ w ∈ ws, Tells WindowDef.toJson w)
    (orderBy : ∀ is ∈ s.orderBy, ∀ i ∈ is, Tells OrderItem.toJson i)
    (limit : ∀ l ∈ s.limit, Tells Limit.toJson l) (fetch : ∀ f ∈ s.fetch, Tells Fetch.toJson f) :
    Tells toJson s := by
  intro s'
  have commonTables := Tells.ofOption commonTables (by rintro ⟨⟩; nofun)
  have source := Tells.ofOption source (by rintro ⟨⟩; nofun)
  have condition := Tells.ofOption (fun e mem => (condition e mem).field "condition") nofun
  have groupBy := Tells.ofOption (fun es mem => .listed "items" (groupBy es mem)) nofun
  have having := Tells.ofOption (fun e mem => (having e mem).field "condition") nofun
  have windows := Tells.ofOption (fun ws mem => .listed "windows" (windows ws mem)) nofun
  have orderBy := Tells.ofOption (fun is mem => .listed "items" (orderBy is mem)) nofun
  have limit := Tells.ofOption limit (by rintro ⟨⟩; nofun)
  have fetch := Tells.ofOption fetch (by rintro ⟨⟩; nofun)
  have lock := Tells.ofOption (fun m (_ : m ∈ s.lock) => m.told.field "lock_mode") nofun
  cases s
  cases s'
  simp [toJson_eq, commonTables _, clause _, source _, condition _, groupBy _, having _, windows _,
    orderBy _, limit _, fetch _, lock _]

/-! All nodes at once, as values hold queries and queries hold values. -/

/-- The form of the node tells it from every other node of its kind. -/
def Node.Told : Node → Prop
  | .expr e => Tells Expr.toJson e
  | .query q => Tells Query.toJson q
  | .identifier name => Tells Json.string name
  | .switch s => Tells Switch.toJson s
  | .branch b => Tells Branch.toJson b
  | .select c => Tells SelectClause.toJson c
  | .selectItem i => Tells SelectItem.toJson i
  | .distinct d => Tells Distinct.toJson d
  | .fromClause f => Tells From.toJson f
  | .join j => Tells Join.toJson j
  | .source s => Tells Source.toJson s
  | .table t => Tells TableRef.toJson t
  | .sourceAlias a => Tells SourceAlias.toJson a
  | .filter condition | .having condition => Tells Expr.toJson condition
  | .groupBy values | .partitionBy values => ∀ e ∈ values, Tells Expr.toJson e
  | .orderBy items => ∀ i ∈ items, Tells OrderItem.toJson i
  | .orderItem i => Tells OrderItem.toJson i
  | .overClause o => Tells Over.toJson o
  | .windowSpec w => Tells WindowSpec.toJson w
  | .frame f => Tells Frame.toJson f
  | .windowDef w => Tells WindowDef.toJson w
  | .windows ws => ∀ w ∈ ws, Tells WindowDef.toJson w
  | .commonTables w => Tells With.toJson w
  | .commonTable t => Tells CommonTable.toJson t
  | .limit l => Tells Limit.toJson l
  | .fetch f => Tells Fetch.toJson f
  | .lock mode => Tells LockMode.toJson mode

/-! Calls, types and lists are no nodes of their own: they are told as the values they make. -/

theorem FunctionCall.told_of_expr {call : FunctionCall} (h : Tells Expr.toJson (.function call)) :
    Tells toJson call := by
  intro call'
  simpa [Expr.toJson] using h (.function call')

theorem TypeRef.told_of_expr {ref : TypeRef} (h : Tells Expr.toJson (.type ref)) :
    Tells toJson ref := by
  intro ref'
  simpa [Expr.toJson] using h (.type ref')

theorem rowToJson_told {row : List Expr} (h : Tells Expr.toJson (.tuple row)) :
    Tells rowToJson row := by
  intro row'
  simpa [Expr.toJson, rowToJson] using h (.tuple row')

theorem Expr.told {e : Expr} (parts : ∀ c ∈ e.children, c.2.Told) : Tells toJson e := by
  intro e'
  cases e with
  | literal value => cases e' <;> simp [toJson, value.told _]
  | raw text | parameter name => cases e' <;> simp [toJson]
  | column ref => cases e' <;> simp [toJson, ref.told _]
  | function call =>
    simp only [children, FunctionCall.children, List.forall_mem_append, forall_maybe] at parts
    have call := FunctionCall.told parts.1.2 parts.2
    cases e' <;> simp [toJson, call _]
  | unary operator operand =>
    have operand : Tells toJson operand := parts _ (.tail _ (.head _))
    cases e' <;> simp [toJson, operand _]
  | binary left operator right =>
    simp only [children, List.forall_mem_cons] at parts
    have left : Tells toJson left := parts.1
    have right : Tells toJson right := parts.2.2.1
    cases e' <;> simp [toJson, left _, right _]
  | array content | paren content =>
    have content : Tells toJson content := parts _ (.head _)
    cases e' <;> simp [toJson, content _]
  | tuple values | list values =>
    have values : ∀ e ∈ values, Tells toJson e := forall_each.1 parts
    cases e' <;> simp [toJson, same_array_map values]
  | case subject switch =>
    simp only [children, List.forall_mem_append, forall_maybe] at parts
    have subject := exprOrNull_told parts.1
    have switch : Tells Switch.toJson switch := parts.2 _ (.head _)
    cases e' <;> simp [toJson, subject _, switch _]
  | cast input type =>
    simp only [children, List.forall_mem_cons] at parts
    have input : Tells toJson input := parts.1
    have type := TypeRef.told_of_expr parts.2.1
    cases e' <;> simp [toJson, input _, type _]
  | between operand lower upper negated =>
    simp only [children, List.forall_mem_cons] at parts
    have operand : Tells toJson operand := parts.1
    have lower : Tells toJson lower := parts.2.1
    have upper : Tells toJson upper := parts.2.2.1
    cases e' <;> simp [toJson, operand _, lower _, upper _]
  | type ref =>
    simp only [children, TypeRef.children, List.forall_mem_cons, forall_maybe] at parts
    have ref := TypeRef.told parts.2
    cases e' <;> simp [toJson, ref _]
  | specifiedString specifier value => cases e' <;> simp [toJson, value.told _]
  | inlineQuery query =>
    have query : Tells Query.toJson query := parts _ (.head _)
    cases e' <;> simp [toJson, query _]

theorem Query.told {q : Query} (parts : ∀ c ∈ q.children, c.2.Told) : Tells toJson q := by
  intro q'
  cases q with
  | simple s =>
    simp only [children, Select.children, List.forall_mem_append, forall_maybe] at parts
    obtain ⟨⟨⟨⟨⟨⟨⟨⟨⟨⟨tables, clause⟩, source⟩, condition⟩, groupBy⟩, having⟩, windows⟩, orderBy⟩,
      limit⟩, fetch⟩, _⟩ := parts
    have select := Select.told tables (clause _ (.head _)) source condition groupBy having windows
      orderBy limit fetch
    cases q' <;> simp [toJson, select _]
  | binary left operator right =>
    simp only [children, List.forall_mem_cons] at parts
    have left : Tells toJson left := parts.1
    have right : Tells toJson right := parts.2.2.1
    cases q' <;> simp [toJson, left _, right _]
  | values rows =>
    have rows : ∀ row ∈ rows, Tells rowToJson row := fun row mem =>
      rowToJson_told (forall_each.1 parts row mem)
    cases q' <;> simp [toJson, same_array_map rows]

theorem Node.told (n : Node) : n.Told := by
  induction n using children_induction with
  | step n ih =>
    cases n with
    | expr e => exact Expr.told ih
    | query q => exact Query.told ih
    | identifier name => exact fun _ => same_string
    | switch s =>
      simp only [children, List.forall_mem_append, forall_each, forall_maybe] at ih
      exact Switch.told ih.1 ih.2
    | branch b => exact Branch.told (ih _ (.head _)) (ih _ (.tail _ (.head _)))
    | select c =>
      simp only [children, List.forall_mem_append, forall_each, forall_maybe] at ih
      exact SelectClause.told ih.1 ih.2
    | selectItem i => exact SelectItem.told (ih _ (.head _))
    | distinct d =>
      refine Distinct.told fun values on => ?_
      subst on
      exact ih _ (.head _)
    | fromClause f =>
      simp only [children, List.forall_mem_cons, forall_each] at ih
      exact From.told ih.1 ih.2
    | join j =>
      simp only [children, List.forall_mem_append, List.forall_mem_flatMap, Option.mem_toList] at ih
      refine Join.told (ih.1 _ (.tail _ (.head _))) fun c mem => JoinCondition.told fun e on => ?_
      subst on
      exact ih.2 _ mem _ (.head _)
    | source s =>
      have data : s.data.node.Told := ih _ (.head _)
      refine Source.told (DataSource.told (fun query sub => ?_) fun call function => ?_)
      · rw [sub] at data
        exact data
      · rw [function] at data
        exact FunctionCall.told_of_expr data
    | table t => exact t.told
    | sourceAlias a => exact a.told
    | filter condition | having condition => exact ih _ (.head _)
    | groupBy values | partitionBy values => exact forall_each.1 ih
    | orderBy items => exact forall_each.1 ih
    | orderItem i => exact OrderItem.told (ih _ (.head _))
    | overClause o =>
      refine Over.told fun w window => ?_
      subst window
      exact ih _ (.head _)
    | windowSpec w =>
      simp only [children, List.forall_mem_append, forall_maybe] at ih
      exact WindowSpec.told ih.1.1 ih.1.2 ih.2
    | frame f =>
      simp only [children, List.forall_mem_append, forall_maybe] at ih
      exact Frame.told (Bound.told ih.1) fun b mem => Bound.told fun e offset =>
        ih.2 e (Option.mem_bind_iff.2 ⟨b, mem, offset⟩)
    | windowDef w => exact WindowDef.told (ih _ (.tail _ (.head _)))
    | windows ws => exact forall_each.1 ih
    | commonTables w => exact With.told (forall_each.1 ih)
    | commonTable t => exact CommonTable.told (ih _ (.tail _ (.head _)))
    | limit l =>
      simp only [children, List.forall_mem_append, forall_maybe] at ih
      exact Limit.told ih.1 ih.2
    | fetch f => exact Fetch.told (forall_maybe.1 ih)
    | lock mode => exact mode.told

/-- Two queries have the same JSON form exactly if they are the same query. -/
theorem Query.toJson_same_iff (q q' : Query) : q.toJson.Same q'.toJson ↔ q = q' :=
  (Node.query q).told q'

end SqlQuery
