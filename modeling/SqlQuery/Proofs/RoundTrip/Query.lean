import SqlQuery.Proofs.RoundTrip.Tree
import SqlQuery.Proofs.RoundTrip.Word

/-!
Queries over tables: whatever their clauses, joins, windows and set operations are, queries whose
values are columns and numbers are written and read back as themselves.
-/

namespace SqlQuery

open Node Child

def IsDigits (text : String) : Prop := text ≠ "" ∧ ∀ c ∈ text.toList, c.isDigit = true

namespace Expr

def IsUnsigned (e : Expr) : Prop := ∃ text, e = .number text ∧ IsDigits text

/-- A column or a number without a sign. -/
def IsLeaf (e : Expr) : Prop :=
  (∃ ref : ColumnRef, e = .column ref ∧ ∀ name ∈ ref.column :: ref.namespaces, IsName name) ∨
    e.IsUnsigned

/-- What may be selected: also all columns, of the tables or of one of them. -/
def IsSelectable (e : Expr) : Prop :=
  e.IsLeaf ∨ ∃ namespaces, e = .column ⟨namespaces, wildcardName⟩ ∧ ∀ name ∈ namespaces, IsName name

def AreLeaves (es : List Expr) : Prop := es ≠ [] ∧ ∀ e ∈ es, e.IsLeaf

end Expr

open SqlQuery.Expr (AreLeaves)

/-- The offset of a bound, if it has one, is a number. -/
def Bound.IsBasic (b : Bound) : Prop := ∀ e ∈ b.offset?, e.IsUnsigned

def JoinCondition.IsBasic : JoinCondition → Prop
  | .on condition => condition.IsLeaf
  | .columns names => names ≠ [] ∧ ∀ name ∈ names, IsName name

/-- A part of a query over tables. -/
def Node.IsBasic : Node → Prop
  | .expr (.list values) | .expr (.tuple values) => ∀ e ∈ values, e.IsLeaf
  | .expr (.raw text) => text ∈ Grammar.setOperators ++ joinKinds
  | .expr e => e.IsSelectable
  | .query (.simple s) => (∀ e ∈ s.condition, e.IsLeaf) ∧ (∀ es ∈ s.groupBy, AreLeaves es) ∧
      (∀ e ∈ s.having, e.IsLeaf) ∧ s.windows ≠ some [] ∧ s.orderBy ≠ some []
  | .query (.binary _ operator right) => operator ∈ Grammar.setOperators ∧ right.IsTerm
  | .query (.values rows) => rows ≠ [] ∧ ∀ row ∈ rows, AreLeaves row
  | .select c => c.items ≠ []
  | .selectItem i => i.value.IsSelectable ∧ (∀ name ∈ i.aliasName, IsName name) ∧
      i.effectiveAlias = i.aliasName
  | .distinct (.on values) => AreLeaves values
  | .join j => j.kind ∈ joinKinds ∧ ∀ condition ∈ j.condition, condition.IsBasic
  | .source s => (∀ call, s.data ≠ .function call) ∧ s.effectiveAlias = s.sourceAlias
  | .table t => IsName t.table ∧ ∀ name ∈ t.namespaces, IsName name
  | .sourceAlias a => IsName a.name ∧ ∀ name ∈ a.columns, IsName name
  | .orderItem i => i.value.IsLeaf
  | .switch _ | .branch _ | .overClause _ => False
  | .windowSpec w => (∀ values ∈ w.partition, AreLeaves values) ∧ w.order ≠ some []
  | .frame f => f.start.IsBasic ∧ ∀ stop ∈ f.stop, stop.IsBasic
  | .windowDef w => IsName w.name ∧ w.spec.hasBounds
  | .commonTables w => w.tables ≠ []
  | .limit l => (l.limit.isSome ∨ l.offset.isSome) ∧ (∀ e ∈ l.limit, e.IsLeaf) ∧
      ∀ e ∈ l.offset, e.IsLeaf
  | .fetch f => (∀ e ∈ f.count, e.IsUnsigned) ∧ (f.unit = .percent → f.count.isSome)
  | _ => True

/-- After the closing parenthesis of `distinct on` a star for all columns would be an operator. -/
def SelectClause.StandsApart (c : SelectClause) : Prop :=
  ∀ values, c.distinct = some (.on values) → ∀ i ∈ c.items.head?, i.value ≠ .column .wildcard

/-- The kinds of join are the keywords that end with `join`. -/
example : joinKinds = "join" :: Keyword.phrases.filter fun phrase =>
    " join".toList.isSuffixOf phrase.toList := by
  decide +kernel

namespace Expr

variable {e : Expr} {d : Dialect}

theorem IsUnsigned.isLeaf (h : e.IsUnsigned) : e.IsLeaf := .inr h

theorem IsLeaf.isSelectable (h : e.IsLeaf) : e.IsSelectable := .inl h

theorem IsSelectable.isValue (h : e.IsSelectable) : e.isValue := by
  rcases h with (⟨ref, rfl, _⟩ | ⟨text, rfl, _⟩) | ⟨namespaces, rfl, _⟩ <;> rfl

theorem IsLeaf.isValue (h : e.IsLeaf) : e.isValue := h.isSelectable.isValue

theorem AreLeaves.areValues {es : List Expr} (h : AreLeaves es) : AreValues es :=
  ⟨h.1, fun e mem => (h.2 e mem).isValue⟩

theorem IsUnsigned.avoids (h : e.IsUnsigned) (words : List String) : e.Avoids words := by
  obtain ⟨text, rfl, _⟩ := h
  intro name mem
  cases mem

theorem IsUnsigned.isSettled (h : e.IsUnsigned) : e.IsSettled := by
  obtain ⟨text, rfl, nonempty, digits⟩ := h
  refine ⟨?_, rfl⟩
  cases chars : text.toList with
  | nil => exact absurd (String.ext (by simpa using chars)) nonempty
  | cons c cs =>
    have minus : c ≠ '-' := ne_of_digit (digits c (by simp [chars])) (by decide)
    simp [leadsSigned, first, number, chars, minus]

theorem IsSelectable.sound (h : e.IsSelectable) : e.Fits ∧ e.Legible d := by
  rcases h with (⟨ref, rfl, names⟩ | ⟨text, rfl, nonempty, digits⟩) | ⟨namespaces, rfl, names⟩
  · exact ⟨fun name mem => names name (List.mem_cons_of_mem _ mem), trivial⟩
  · have some : text.toList ≠ [] := fun empty => nonempty (String.ext (by simpa using empty))
    obtain ⟨c, cs, chars⟩ := List.exists_cons_of_ne_nil some
    have quote : c ≠ '\x27' := ne_of_digit (digits c (by simp [chars])) (by decide)
    refine ⟨?_, .inl (isNumberText_digits some digits)⟩
    change isQuoted text = false
    simp [isQuoted, chars, quote]
  · exact ⟨names, trivial⟩

theorem IsSelectable.sign (h : e.IsSelectable) : e.leadsLooseSign = false := by
  rcases h with (⟨_, rfl, _⟩ | ⟨_, rfl, _⟩) | ⟨_, rfl, _⟩
  all_goals rfl

theorem IsSelectable.isSettled (h : e.IsSelectable) (star : e ≠ .column .wildcard) :
    e.IsSettled := by
  have column (ref : ColumnRef) (other : ref ≠ .wildcard) : (Expr.column ref).IsSettled := by
    refine ⟨rfl, ?_⟩
    simpa [leadsStar, first] using other
  rcases h with (⟨ref, rfl, names⟩ | unsigned) | ⟨namespaces, rfl, names⟩
  · exact column ref fun same => star (by rw [same])
  · exact unsigned.isSettled
  · exact column _ fun same => star (by rw [same])

end Expr

namespace Node

variable {n : Node} {d : Dialect}

theorem IsBasic.fits (h : n.IsBasic) : n.Fits := by
  cases n with
  | expr e =>
    cases e with
    | list => trivial
    | tuple => exact fun e mem => (h e mem).isValue
    | raw => exact (List.mem_append.1 h).elim set_plain join_plain
    | _ => exact (Expr.IsSelectable.sound (d := .standard) h).1
  | query q =>
    cases q with
    | simple s =>
      obtain ⟨condition, groupBy, having, rest⟩ := h
      exact ⟨fun e mem => (condition e mem).isValue, fun es mem => (groupBy es mem).areValues,
        fun e mem => (having e mem).isValue, rest⟩
    | binary left operator right => exact h
    | values rows => exact ⟨h.1, fun row mem => (h.2 row mem).areValues⟩
  | select c => exact h
  | selectItem i => exact ⟨h.1.isValue, h.2⟩
  | distinct x =>
    cases x with
    | rows => trivial
    | on values => exact AreLeaves.areValues h
  | join j =>
    refine ⟨h.1, fun condition mem => ?_⟩
    have basic := h.2 condition mem
    cases condition with
    | on condition => exact Expr.IsLeaf.isValue basic
    | columns names => exact basic
  | source s => exact h.2
  | table t => exact h
  | sourceAlias a => exact h
  | orderItem i => exact h.isValue
  | windowSpec w => exact ⟨fun es mem => (h.1 es mem).areValues, h.2⟩
  | frame f =>
    have bound {b : Bound} (basic : b.IsBasic) : b.Fits :=
      fun e mem => ⟨(basic e mem).isLeaf.isValue, (basic e mem).avoids _⟩
    exact ⟨bound h.1, fun stop mem => bound (h.2 stop mem)⟩
  | windowDef w => exact h
  | commonTables w => exact h
  | limit l => exact ⟨h.1, fun e mem => (h.2.1 e mem).isValue, fun e mem => (h.2.2 e mem).isValue⟩
  | fetch f => exact ⟨fun e mem => ⟨(h.1 e mem).isLeaf.isValue, (h.1 e mem).avoids _⟩, h.2⟩
  | switch s => exact h.elim
  | branch b => exact h.elim
  | overClause o => exact h.elim
  | _ => trivial

/-- There are no signs before numbers in it. -/
theorem IsBasic.sign {e : Expr} (h : (Node.expr e).IsBasic) : e.leadsLooseSign = false := by
  cases e with
  | list | tuple | raw => rfl
  | _ => exact Expr.IsSelectable.sign h

theorem IsBasic.legible (basic : ∀ m ∈ n.walk, m.IsBasic)
    (apart : ∀ c, n = .select c → c.StandsApart) : n.Legible d := by
  obtain ⟨own, parts⟩ := forall_mem_walk.1 basic
  refine ⟨?_, fun e awaited => IsBasic.sign (parts _ (awaited_below awaited))⟩
  cases n with
  | expr e =>
    cases e with
    | list | tuple | raw => trivial
    | _ => exact (Expr.IsSelectable.sound (d := d) own).2
  | select c =>
    intro values on i mem
    have item : (Node.selectItem i).IsBasic :=
      parts _ (.child "item" (List.mem_append_right _
        (List.mem_map.2 ⟨i, List.mem_of_mem_head? mem, rfl⟩)))
    exact item.1.isSettled (apart c rfl values on i mem)
  | frame f => exact fun _ e mem => (own.1 e mem).isSettled
  | fetch f => exact fun e mem => (own.1 e mem).isSettled
  | _ => trivial

end Node

/-- A query over tables is written and read back as itself, unless `distinct on` is followed by all
columns. -/
theorem parse_basic {q : Query} (basic : ∀ m ∈ (Node.query q).walk, m.IsBasic)
    (apart : ∀ c, .select c ∈ (Node.query q).walk → c.StandsApart) :
    ∃ bound, ∀ levels limit, bound ≤ levels → bound ≤ limit → ∃ text,
      (Node.query q).write .standard levels = .ok text ∧ Query.parse text limit = .ok q := by
  refine Query.parse_write (fun m mem => (basic m mem).fits) (fun m mem => ?_) rfl
  refine IsBasic.legible (fun k inside => basic k ?_) fun c same => apart c (same ▸ mem)
  have part : m.walk <:+: (Node.query q).walk := walk_infix _ m mem
  exact part.subset inside

/-- `select t.*, u.x as "order" from "left" as t cross join (values (1)) as u(x) limit 2`. -/
def Query.crossed : Query :=
  .simple ⟨none, ⟨none, [⟨.column ⟨["t"], wildcardName⟩, none⟩,
      ⟨.column ⟨["u"], "x"⟩, some "order"⟩]⟩,
    some ⟨⟨.table ⟨[], "left"⟩, some ⟨"t", []⟩⟩,
      [⟨"cross join", false, ⟨.subQuery (.values [[.number "1"]]), some ⟨"u", ["x"]⟩⟩, none⟩]⟩,
    none, none, none, none, none, some ⟨some (.number "2"), none⟩, none, none⟩

theorem parse_basic_crossed :
    ∃ bound, ∀ levels limit, bound ≤ levels → bound ≤ limit → ∃ text,
      (Node.query Query.crossed).write .standard levels = .ok text ∧
        Query.parse text limit = .ok Query.crossed := by
  have all : ∀ m ∈ (Node.query Query.crossed).walk,
      m.IsBasic ∧ ∀ c, m = .select c → c.StandsApart := by
    simp [forall_mem_walk_children (n := .query _), forall_mem_walk_children (n := .select _),
      forall_mem_walk_children (n := .selectItem _), forall_mem_walk_children (n := .expr _),
      forall_mem_walk_children (n := .fromClause _), forall_mem_walk_children (n := .source _),
      forall_mem_walk_children (n := .table _), forall_mem_walk_children (n := .join _),
      forall_mem_walk_children (n := .sourceAlias _), forall_mem_walk_children (n := .limit _),
      forall_mem_walk_children (n := .identifier _), Query.crossed, Node.children, Query.children,
      Select.children, Expr.children, Expr.number, DataSource.node, maybe, each, Node.IsBasic,
      Expr.IsSelectable, Expr.IsLeaf, Expr.IsUnsigned, AreLeaves, IsDigits, IsName, wildcardName,
      joinKinds, SelectItem.effectiveAlias, Source.effectiveAlias, SelectClause.StandsApart]
  exact parse_basic (fun m mem => (all m mem).1) fun c mem => (all _ mem).2 c rfl

end SqlQuery
