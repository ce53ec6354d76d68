import SqlQuery.Proofs.Written.Shape

/-!
What the grammar promises of the nodes that it gives, whatever the tokens are: what stands where a
value is read, how the operators of an expression are grouped, and what each part of a query has.
Texts are known only as far as the tokens with the property `T` are.
-/

namespace SqlQuery

theorem Child.forall_pair {a b : Child} {p : Child → Prop} : (∀ c ∈ [a, b], p c) ↔ p a ∧ p b := by
  rw [List.forall_mem_cons, List.forall_mem_singleton]

section

variable (T : Token → Prop)

/-- The literal is a keyword, or stands in a token. -/
inductive Literal.Parsed : Literal → Prop
  | null : Parsed .null
  | boolean (value : Bool) : Parsed (.boolean value)
  | token {t : Token} (known : T t) (kind : t.kind = .literal) : Parsed (.ofText t.text)
  | specified {t : Token} {specifier : String} {value : Literal} (known : T t)
      (kind : t.kind = .escapedString)
      (same : Expr.ofSpecified t.text = .specifiedString specifier value) : Parsed value

/-- A string with its specifier in one token, or after the lowercase name of a type. -/
inductive SpecifiedParsed : String → Literal → Prop
  | token {t : Token} {specifier : String} {value : Literal} (known : T t)
      (kind : t.kind = .escapedString)
      (same : Expr.ofSpecified t.text = .specifiedString specifier value) :
      SpecifiedParsed specifier value
  | typed {t : Token} {specifier : String} (lower : IsLower specifier) (known : T t)
      (kind : t.kind = .literal) (quoted : isQuoted t.text = true) :
      SpecifiedParsed specifier (.ofText t.text)

/-- A comma, which joins without a condition, or a keyword that ends as the word does. -/
def JoinParsed (kind : String) : Prop :=
  kind = "cross join" ∨
    ∃ t, T t ∧ t.kind = .command ∧ t.text = kind ∧ "join".toList <:+ kind.toList

end

namespace Expr

/-- What may stand between the parentheses of a call. -/
inductive Argues (name : String) : Expr → Prop
  | wildcard : Argues name (.column .wildcard)
  | query (q : Query) : Argues name (.inlineQuery q)
  | distinct {content : Expr} (listing : content.IsListing) :
      Argues name (.unary "distinct" content)
  | extract {field : String} {value : Expr} (call : Text.lower name = "extract")
      (lower : IsLower field) (isValue : value.isValue) :
      Argues name (.binary (.raw field) "from" value)
  | listing {content : Expr} (listing : content.IsListing) : Argues name content

/-- The right side of an operator: a list after `in`, or what binds more tightly. -/
def IsRightSide (operator : String) (power : Nat) (right : Expr) : Prop :=
  Power.isMembership operator ∧ right.isTuple ∨ right.isValue ∧ power + 1 ≤ right.spine

def Parsed (T : Token → Prop) : Expr → Prop
  | .literal value => value.Parsed T
  | .column ref => ∀ name ∈ ref.namespaces, IsName name
  | .function call => IsName call.name ∧ (∀ name ∈ call.namespaces, IsName name) ∧
      ∀ e ∈ call.argument, e.Argues call.name
  | .unary operator operand => operator = "distinct" ∨ operand.IsOperand operator
  | .binary left operator right => operator = "from" ∧ (∃ field, left = .raw field) ∨
      ∃ power, Power.infix? operator = some power ∧ operator ∉ Power.special ∧ left.isValue ∧
        power < left.edge ∧ right.IsRightSide operator power
  | .parameter name => ∃ t, T t ∧ t.kind = .parameter ∧ t.text = name
  | .array content => (∃ query, content = .inlineQuery query) ∨
      ∃ values, content = .list values ∧ ∀ e ∈ values, e.isValue
  | .tuple values => ∀ e ∈ values, e.isValue
  | .case subject switch => (∀ e ∈ subject, e.isValue) ∧ switch.branches ≠ [] ∧
      ∀ e ∈ switch.otherwise, e.isValue
  | .cast input _ => input.isValue
  | .paren inner => inner.isValue
  | .between operand lower upper _ =>
    (operand.isValue ∧ Power.between < operand.edge) ∧
      (lower.isValue ∧ Power.between + 1 ≤ lower.spine ∧ Power.infixPower "and" < lower.edge) ∧
      upper.isValue ∧ Power.between + 1 ≤ upper.spine
  | .type ref => (ref.name ∈ longTypes ∨ IsLower ref.name) ∧
      ∀ e ∈ ref.argument, ∃ values, e = .list values ∧ AreValues values
  | .specifiedString specifier value => SpecifiedParsed T specifier value
  | .raw _ | .list _ | .inlineQuery _ => True

end Expr

namespace Node

variable (T : Token → Prop)

def Parsed : Node → Prop
  | .expr e => e.Parsed T
  | .query q => q.Fits
  | .branch b => b.key.isValue ∧ b.value.isValue
  | .select c => c.items ≠ []
  | .selectItem i => i.value.isValue ∧ ∀ name ∈ i.aliasName, IsName name
  | .distinct (.on values) => AreValues values
  | .join j => JoinParsed T j.kind ∧ ∀ condition ∈ j.condition, condition.Fits
  | .table t => IsName t.table ∧ ∀ name ∈ t.namespaces, IsName name
  | .sourceAlias a => a.Fits
  | .orderItem i => i.value.isValue
  | .overClause (.named name) => IsName name
  | .windowSpec w => w.Fits
  | .frame f => (∀ e ∈ f.start.offset?, e.isValue) ∧ ∀ stop ∈ f.stop, ∀ e ∈ stop.offset?, e.isValue
  | .windowDef w => IsName w.name ∧ w.spec.hasBounds
  | .commonTables w => w.tables ≠ []
  | .limit l => (l.limit.isSome ∨ l.offset.isSome) ∧ (∀ e ∈ l.limit, e.isValue) ∧
      ∀ e ∈ l.offset, e.isValue
  | .fetch f => (∀ e ∈ f.count, e.isValue) ∧ (f.unit = .percent → f.count.isSome)
  | _ => True

/-- The grammar promises this of the node and of all that stands below it. -/
def AllParsed (n : Node) : Prop := ∀ m ∈ n.walk, m.Parsed T

variable {T}

theorem allParsed_iff {n : Node} :
    n.AllParsed T ↔ n.Parsed T ∧ ∀ c ∈ n.children, c.2.AllParsed T := by
  unfold AllParsed
  rw [walk_eq, List.forall_mem_cons, List.forall_mem_flatMap]

theorem AllParsed.of_children {n : Node} (own : n.Parsed T)
    (below : ∀ c ∈ n.children, c.2.AllParsed T) : n.AllParsed T :=
  allParsed_iff.2 ⟨own, below⟩

theorem AllParsed.of_mem_walk {n m : Node} (h : n.AllParsed T) (mem : m ∈ n.walk) : m.AllParsed T :=
  fun k inside => h k ((n.walk_infix m mem).subset inside)

theorem allParsed_leaf {n : Node} (own : n.Parsed T) (leaf : n.children = []) : n.AllParsed T :=
  .of_children own (by simp [leaf])

@[simp] theorem allParsed_raw (text : String) : (Node.expr (.raw text)).AllParsed T :=
  allParsed_leaf trivial rfl

@[simp] theorem allParsed_identifier (name : String) : (Node.identifier name).AllParsed T :=
  allParsed_leaf trivial rfl

end Node

end SqlQuery
