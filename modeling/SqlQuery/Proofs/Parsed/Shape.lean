import SqlQuery.Proofs.Parser.Query
import SqlQuery.Proofs.Parsed.Query

/-!
The shape of the statements that are accepted: which of their lists have an item, what the operands of
a chain of set operations are, and where those parts stand that are no complete values by themselves.
-/

namespace SqlQuery

/-- The operands of a chain of set operations, from left to right. -/
def Query.operands : Query → List Query
  | .binary left _ right => left.operands ++ right.operands
  | q => [q]

/-- Has the parts that a node of its kind cannot do without. -/
def Node.Complete : Node → Prop
  | .expr (.unary operator operand) => operator = "exists" → ∃ query, operand = .inlineQuery query
  | .expr (.case _ s) => s.branches ≠ []
  | .query (.simple s) => s.groupBy ≠ some [] ∧ s.windows ≠ some [] ∧ s.orderBy ≠ some []
  | .query (.binary left operator right) =>
    right.IsTerm ∧ ∀ q ∈ (Query.binary left operator right).operands.tail, q.IsTerm
  | .query (.values rows) => rows ≠ [] ∧ ∀ row ∈ rows, row ≠ []
  | .select c => c.items ≠ []
  | .distinct (.on values) => values ≠ []
  | .join j => j.condition ≠ some (.columns [])
  | .windowSpec w => w.partition ≠ some [] ∧ w.order ≠ some []
  | .windowDef w => w.spec.partition.isSome ∨ w.spec.order.isSome
  | .commonTables w => w.tables ≠ []
  | .limit l => l.limit.isSome ∨ l.offset.isSome
  | _ => True

/-- May stand wherever a part of its kind may. -/
def Node.Whole : Node → Prop
  | .expr (.raw _) | .expr (.type _) | .expr (.list _) => False
  | .expr (.tuple values) => 2 ≤ values.length
  | .expr (.unary operator _) => operator ≠ "distinct"
  | .expr (.binary _ operator _) => operator ≠ "from"
  | .identifier name => name ≠ wildcardName
  | _ => True

/-- The texts that are part of a node and no values, by their roles. -/
def Node.texts : Node → List (String × String)
  | .expr (.function call) => [("name", call.name)]
  | .expr (.type ref) => [("name", ref.name)]
  | .expr (.unary operator _) | .expr (.binary _ operator _) | .query (.binary _ operator _) =>
    [("operator", operator)]
  | .expr (.specifiedString specifier _) => [("specifier", specifier)]
  | .join j => [("type", j.kind)]
  | _ => []

/-- The only places of parts that are not whole, each in its parent. -/
inductive Child.Placed : Node → Child → Prop
  | text {n : Node} {role text : String} (own : (role, text) ∈ n.texts) :
      Placed n (role, .expr (.raw text))
  | field (field : String) (value : Expr) :
      Placed (.expr (.binary (.raw field) "from" value)) ("left", .expr (.raw field))
  | extract {call : FunctionCall} {left value : Expr} (named : Text.lower call.name = "extract")
      (same : call.argument = some (.binary left "from" value)) :
      Placed (.expr (.function call)) ("argument", .expr (.binary left "from" value))
  | distinct {call : FunctionCall} {content : Expr}
      (same : call.argument = some (.unary "distinct" content)) :
      Placed (.expr (.function call)) ("argument", .expr (.unary "distinct" content))
  | castType (input : Expr) (ref : TypeRef) :
      Placed (.expr (.cast input ref)) ("type", .expr (.type ref))
  | members {left : Expr} {operator : String} {values : List Expr}
      (membership : operator = "in" ∨ operator = "not in") :
      Placed (.expr (.binary left operator (.tuple values))) ("right", .expr (.tuple values))
  | row {rows : List (List Expr)} {row : List Expr} (mem : row ∈ rows) :
      Placed (.query (.values rows)) ("tuple", .expr (.tuple row))
  | array (values : List Expr) :
      Placed (.expr (.array (.list values))) ("expression", .expr (.list values))
  | typeArguments {ref : TypeRef} {values : List Expr} (same : ref.argument = some (.list values)) :
      Placed (.expr (.type ref)) ("argument", .expr (.list values))
  | arguments {call : FunctionCall} {values : List Expr} (same : call.argument = some (.list values))
      (several : 2 ≤ values.length) :
      Placed (.expr (.function call)) ("argument", .expr (.list values))
  | distinctArguments {values : List Expr} (several : 2 ≤ values.length) :
      Placed (.expr (.unary "distinct" (.list values))) ("expression", .expr (.list values))
  | distinctOn (values : List Expr) :
      Placed (.distinct (.on values)) ("on", .expr (.list values))
  | column (ref : ColumnRef) : Placed (.expr (.column ref)) ("column", .identifier ref.column)

/-- The node has all its parts, and each of them stands where it may. -/
def Node.WellShaped (n : Node) : Prop := n.Complete ∧ ∀ c ∈ n.children, c.2.Whole ∨ c.Placed n

/-- What the parent of a part knows of what stands in the part. -/
def Node.Vouched : Node → Prop
  | .expr (.list values) => ∀ e ∈ values, e.isValue
  | .expr (.unary operator operand) => operator = "distinct" → operand.IsListing
  | .expr (.binary _ operator right) => operator = "from" → right.isValue
  | .switch s => ∀ e ∈ s.otherwise, e.isValue
  | .filter condition | .having condition => condition.isValue
  | .groupBy values | .partitionBy values => ∀ e ∈ values, e.isValue
  | _ => True

/-- The part stands where it may, and so does what it holds. -/
def Child.Stands (n : Node) (c : Child) : Prop := c.2.Vouched ∧ (c.2.Whole ∨ c.Placed n)

namespace Child

variable {n : Node} {role : String}

theorem stands_value {e : Expr} (h : e.isValue) : Stands n (role, .expr e) := by
  cases e <;> simp_all [Stands, Node.Vouched, Node.Whole, Expr.isValue]

theorem stands_name {name : String} (h : IsName name) : Stands n (role, .identifier name) :=
  ⟨trivial, .inl h⟩

theorem stands_text {text : String} (own : (role, text) ∈ n.texts) :
    Stands n (role, .expr (.raw text)) :=
  ⟨trivial, .inr (.text own)⟩

theorem stands_values {es : List Expr} (h : ∀ e ∈ es, e.isValue) :
    ∀ c ∈ each role Node.expr es, Stands n c :=
  forall_each.2 fun e mem => stands_value (h e mem)

theorem stands_names {names : List String} (h : ∀ name ∈ names, IsName name) :
    ∀ c ∈ each role Node.identifier names, Stands n c :=
  forall_each.2 fun name mem => stands_name (h name mem)

end Child

open Child

variable {T : Token → Prop}

/-- One value is whole, and a list of several stands where the call says. -/
theorem Expr.IsListing.stands {n : Node} {role : String} {e : Expr} (h : e.IsListing)
    (placed : ∀ values, e = .list values → 2 ≤ values.length → Child.Placed n (role, .expr e)) :
    Child.Stands n (role, .expr e) := by
  cases e with
  | list values => exact ⟨h.2.2, .inr (placed values rfl h.1)⟩
  | _ => exact stands_value h

theorem Expr.Argues.stands {call : FunctionCall} {e : Expr} (h : e.Argues call.name)
    (same : call.argument = some e) : Child.Stands (.expr (.function call)) ("argument", .expr e) := by
  cases h with
  | wildcard => exact ⟨trivial, .inl trivial⟩
  | query q => exact ⟨trivial, .inl trivial⟩
  | distinct listing => exact ⟨fun _ => listing, .inr (.distinct same)⟩
  | extract named _ isValue => exact ⟨fun _ => isValue, .inr (.extract named same)⟩
  | listing listing =>
    refine listing.stands fun values list several => ?_
    subst list
    exact .arguments same several

theorem Expr.stands_function {call : FunctionCall} (own : (Expr.function call).Parsed T) :
    ∀ c ∈ call.children, c.Stands (.expr (.function call)) := by
  obtain ⟨_, spaces, argued⟩ := own
  simp only [FunctionCall.children, List.forall_mem_append, List.forall_mem_singleton, forall_maybe]
  refine ⟨⟨⟨stands_names spaces, stands_text List.mem_cons_self⟩, fun e mem => ?_⟩, fun o _ => ?_⟩
  · exact (argued e mem).stands mem
  · exact ⟨trivial, .inl trivial⟩

theorem Expr.stands_unary {operator : String} {operand : Expr}
    (own : (Expr.unary operator operand).Parsed T)
    (vouched : (Node.expr (.unary operator operand)).Vouched) :
    Child.Stands (.expr (.unary operator operand)) ("expression", .expr operand) := by
  by_cases distinct : operator = "distinct"
  · refine (vouched distinct).stands fun values list several => ?_
    subst distinct list
    exact .distinctArguments several
  · have isOperand : operand.IsOperand operator := own.resolve_left distinct
    unfold Expr.IsOperand at isOperand
    split at isOperand
    · exact stands_value isOperand.1
    · obtain ⟨_, query, rfl⟩ := isOperand
      exact stands_value rfl

theorem Expr.stands_binary {left right : Expr} {operator : String}
    (own : (Expr.binary left operator right).Parsed T)
    (vouched : (Node.expr (.binary left operator right)).Vouched) :
    ∀ c ∈ (Expr.binary left operator right).children, c.Stands (.expr (.binary left operator right)) := by
  rw [Expr.children, List.forall_mem_cons, forall_pair]
  rcases own with ⟨rfl, field, rfl⟩ | ⟨power, _, _, isValue, _, side⟩
  · exact ⟨⟨trivial, .inr (.field field right)⟩, stands_text List.mem_cons_self,
      stands_value (vouched rfl)⟩
  · refine ⟨stands_value isValue, stands_text List.mem_cons_self, ?_⟩
    rcases side with ⟨membership, tuple⟩ | ⟨isValue, _⟩
    · cases right with
      | tuple values =>
        simp only [Power.isMembership, Bool.or_eq_true, beq_iff_eq] at membership
        exact ⟨trivial, .inr (.members membership)⟩
      | _ => cases tuple
    · exact stands_value isValue

theorem Expr.stands_children {e : Expr} (own : e.Parsed T) (vouched : (Node.expr e).Vouched) :
    ∀ c ∈ e.children, c.Stands (.expr e) := by
  cases e with
  | literal value | raw text | parameter name => simp [Expr.children]
  | column ref =>
    simp only [Expr.children, List.forall_mem_append, List.forall_mem_singleton]
    exact ⟨stands_names own, trivial, .inr (.column ref)⟩
  | function call => exact stands_function own
  | unary operator operand =>
    exact forall_pair.2 ⟨stands_text List.mem_cons_self, stands_unary own vouched⟩
  | binary left operator right => exact stands_binary own vouched
  | array content =>
    simp only [Expr.children, List.forall_mem_singleton]
    rcases own with ⟨query, rfl⟩ | ⟨values, rfl, each⟩
    · exact stands_value rfl
    · exact ⟨each, .inr (.array values)⟩
  | tuple values => exact stands_values own
  | list values => exact stands_values vouched
  | case subject arms =>
    simp only [Expr.children, List.forall_mem_append, List.forall_mem_singleton, forall_maybe]
    exact ⟨fun e mem => stands_value (own.1 e mem), own.2.2, .inl trivial⟩
  | cast input ref => exact forall_pair.2 ⟨stands_value own, trivial, .inr (.castType input ref)⟩
  | paren inner =>
    simp only [Expr.children, List.forall_mem_singleton]
    exact stands_value own
  | between operand lower upper negated =>
    obtain ⟨⟨first, _⟩, ⟨second, _⟩, third, _⟩ := own
    rw [Expr.children, List.forall_mem_cons, forall_pair]
    exact ⟨stands_value first, stands_value second, stands_value third⟩
  | type ref =>
    simp only [Expr.children, TypeRef.children, List.forall_mem_cons, forall_maybe]
    refine ⟨stands_text List.mem_cons_self, fun e mem => ?_⟩
    obtain ⟨values, rfl, listed⟩ := own.2 e mem
    exact ⟨listed.2, .inr (.typeArguments mem)⟩
  | specifiedString specifier value =>
    exact forall_pair.2 ⟨stands_text List.mem_cons_self, stands_value rfl⟩
  | inlineQuery query =>
    simp only [Expr.children, List.forall_mem_singleton]
    exact ⟨trivial, .inl trivial⟩

/-- What is neither a value nor a name stands anywhere. -/
theorem Query.stands_children {q : Query} (own : q.Fits) : ∀ c ∈ q.children, c.Stands (.query q) := by
  cases q with
  | simple s =>
    obtain ⟨condition, groups, having, _⟩ := own
    have other {role : String} {m : Node} (vouched : m.Vouched) (whole : m.Whole) :
        Child.Stands (.query (.simple s)) (role, m) := ⟨vouched, .inl whole⟩
    simp only [Query.children, Select.children, List.forall_mem_append, List.forall_mem_singleton,
      forall_maybe]
    exact ⟨⟨⟨⟨⟨⟨⟨⟨⟨⟨fun _ _ => other trivial trivial, other trivial trivial⟩,
      fun _ _ => other trivial trivial⟩, fun e mem => other (condition e mem) trivial⟩,
      fun es mem => other (groups es mem).2 trivial⟩, fun e mem => other (having e mem) trivial⟩,
      fun _ _ => other trivial trivial⟩, fun _ _ => other trivial trivial⟩,
      fun _ _ => other trivial trivial⟩, fun _ _ => other trivial trivial⟩,
      fun _ _ => other trivial trivial⟩
  | binary left operator right =>
    rw [Query.children, List.forall_mem_cons, forall_pair]
    exact ⟨⟨trivial, .inl trivial⟩, stands_text List.mem_cons_self, trivial, .inl trivial⟩
  | values rows => exact forall_each.2 fun row mem => ⟨trivial, .inr (.row mem)⟩

theorem Node.stands_children {n : Node} (own : n.Parsed T) (vouched : n.Vouched) :
    ∀ c ∈ n.children, c.Stands n := by
  cases n with
  | expr e => exact e.stands_children own vouched
  | query q => exact q.stands_children own
  | identifier name | lock mode => simp [Node.children]
  | switch s =>
    simp only [Node.children, List.forall_mem_append, forall_each, forall_maybe]
    exact ⟨fun b _ => ⟨trivial, .inl trivial⟩, fun e mem => stands_value (vouched e mem)⟩
  | branch b => exact forall_pair.2 ⟨stands_value own.1, stands_value own.2⟩
  | select c =>
    simp only [Node.children, List.forall_mem_append, forall_each, forall_maybe]
    exact ⟨fun d _ => ⟨trivial, .inl trivial⟩, fun i _ => ⟨trivial, .inl trivial⟩⟩
  | selectItem i =>
    simp only [Node.children, List.forall_mem_cons, forall_maybe]
    exact ⟨stands_value own.1, fun name mem => stands_name (own.2 name mem)⟩
  | distinct d =>
    cases d with
    | rows => simp [Node.children, Distinct.children]
    | on values =>
      simp only [Node.children, Distinct.children, List.forall_mem_singleton]
      exact ⟨own.2, .inr (.distinctOn values)⟩
  | fromClause f =>
    simp only [Node.children, List.forall_mem_cons, forall_each]
    exact ⟨⟨trivial, .inl trivial⟩, fun j _ => ⟨trivial, .inl trivial⟩⟩
  | join j =>
    simp only [Node.children, List.forall_mem_append, forall_pair, List.forall_mem_flatMap,
      Option.mem_toList]
    refine ⟨⟨stands_text List.mem_cons_self, trivial, .inl trivial⟩, fun condition mem => ?_⟩
    cases condition with
    | on e => simpa [JoinCondition.children] using stands_value (own.2 _ mem)
    | columns names => exact stands_names (own.2 _ mem).2
  | source s =>
    simp only [Node.children, List.forall_mem_cons, forall_maybe]
    refine ⟨?_, fun a _ => ⟨trivial, .inl trivial⟩⟩
    cases s.data with
    | function call => exact stands_value rfl
    | _ => exact ⟨trivial, .inl trivial⟩
  | table t =>
    simp only [Node.children, List.forall_mem_append, List.forall_mem_singleton]
    exact ⟨stands_names own.2, stands_name own.1⟩
  | sourceAlias a =>
    simp only [Node.children, List.forall_mem_cons]
    exact ⟨stands_name own.1, stands_names own.2⟩
  | filter condition | having condition =>
    simp only [Node.children, List.forall_mem_singleton]
    exact stands_value vouched
  | groupBy values | partitionBy values => exact stands_values vouched
  | orderBy items => exact forall_each.2 fun i _ => ⟨trivial, .inl trivial⟩
  | orderItem i =>
    simp only [Node.children, List.forall_mem_singleton]
    exact stands_value own
  | overClause o =>
    cases o with
    | named name => simpa [Node.children, Over.children] using stands_name own
    | window spec =>
      simp only [Node.children, Over.children, List.forall_mem_singleton]
      exact ⟨trivial, .inl trivial⟩
  | windowSpec w =>
    simp only [Node.children, List.forall_mem_append, forall_maybe]
    exact ⟨⟨fun values mem => ⟨(own.1 values mem).2, .inl trivial⟩,
      fun items _ => ⟨trivial, .inl trivial⟩⟩, fun f _ => ⟨trivial, .inl trivial⟩⟩
  | frame f =>
    simp only [Node.children, List.forall_mem_append, forall_maybe]
    refine ⟨fun e mem => stands_value (own.1 e mem), fun e mem => ?_⟩
    obtain ⟨stop, mem, offset⟩ := Option.bind_eq_some_iff.1 mem
    exact stands_value (own.2 stop mem e offset)
  | windowDef w => exact forall_pair.2 ⟨stands_name own.1, trivial, .inl trivial⟩
  | windows ws => exact forall_each.2 fun w _ => ⟨trivial, .inl trivial⟩
  | commonTables w => exact forall_each.2 fun t _ => ⟨trivial, .inl trivial⟩
  | commonTable t => exact forall_pair.2 ⟨⟨trivial, .inl trivial⟩, trivial, .inl trivial⟩
  | limit l =>
    simp only [Node.children, List.forall_mem_append, forall_maybe]
    exact ⟨fun e mem => stands_value (own.2.1 e mem), fun e mem => stands_value (own.2.2 e mem)⟩
  | fetch f => exact forall_maybe.2 fun e mem => stands_value (own.1 e mem)

theorem Query.operands_ne_nil (q : Query) : q.operands ≠ [] := by
  match q with
  | .binary left _ right =>
    rw [operands]
    exact fun empty => operands_ne_nil left (List.append_eq_nil_iff.1 empty).1
  | .simple _ | .values _ => exact List.cons_ne_nil _ _

theorem Query.IsTerm.operands {q : Query} (h : q.IsTerm) : q.operands = [q] := by
  cases q with
  | binary => cases h
  | _ => rfl

/-- Every operand of a chain but the first one is a single term, since operations group to the left. -/
theorem Query.isTerm_of_operand (q : Query) (h : (Node.query q).AllParsed T) :
    ∀ term ∈ q.operands.tail, term.IsTerm := by
  match q with
  | .binary left operator right =>
    obtain ⟨own, below⟩ := Node.allParsed_iff.1 h
    have first : (Node.query left).AllParsed T := below ("left", _) List.mem_cons_self
    have earlier := isTerm_of_operand left first
    rw [Query.operands, List.tail_append_of_ne_nil (operands_ne_nil left), own.2.operands]
    exact List.forall_mem_append.2 ⟨earlier, List.forall_mem_singleton.2 own.2⟩
  | .simple _ | .values _ => exact nofun

theorem Node.complete_of_parsed {n : Node} (h : n.AllParsed T) : n.Complete := by
  have own : n.Parsed T := (allParsed_iff.1 h).1
  unfold Complete
  split
  · rename_i operator operand
    rintro rfl
    have isOperand : operand.IsOperand "exists" := own.resolve_left (by decide)
    exact isOperand.2
  · exact own.2.1
  · obtain ⟨_, groups, _, windows, order⟩ := own
    exact ⟨fun empty => (groups [] empty).1 rfl, windows, order⟩
  · exact ⟨own.2, Query.isTerm_of_operand _ h⟩
  · exact ⟨own.1, fun row mem => (own.2 row mem).1⟩
  · exact own
  · exact own.1
  · exact fun empty => (own.2 (.columns []) empty).1 rfl
  · exact ⟨fun empty => (own.1 [] empty).1 rfl, own.2⟩
  · simpa [WindowSpec.hasBounds] using own.2
  · exact own
  · exact own.1
  · trivial

/-- By induction on the levels of the tree: what a part holds is vouched for by its parent. -/
theorem Node.wellShaped_of_parsed {n : Node} (h : n.AllParsed T) (vouched : n.Vouched) :
    ∀ m ∈ n.walk, m.WellShaped := by
  induction n using children_induction with
  | step n ih =>
    obtain ⟨own, below⟩ := allParsed_iff.1 h
    have stands := n.stands_children own vouched
    rw [forall_mem_walk_children]
    constructor
    · exact ⟨complete_of_parsed h, fun c mem => (stands c mem).2⟩
    · exact fun c mem => ih c mem (below c mem) (stands c mem).1

theorem Grammar.statementAt_sound (T : Token → Prop) (n : Nat) :
    Rule.Makes T (statementAt n) fun q => (Node.query q).AllParsed T := by
  refine (levelAt_sound T n).1.query.bind fun q parsed => (Rule.Makes.eat _).pass fun _ => ?_
  refine (Rule.Makes.peek.post fun _ _ => trivial).pass fun _ => .ite (fun _ => ?_) fun _ => .ret parsed
  exact fun ts a rest _ _ run => by cases run

namespace Session

/-- In the tree of a statement that is accepted every node has all its parts, and each part stands
where it may. -/
theorem statement_wellShaped {L : List Lexeme} {limit : Nat} {query : Query}
    (read : (start L limit).statement.1 = .ok query) :
    ∀ m ∈ (Node.query query).walk, m.WellShaped := by
  obtain ⟨rest, ran⟩ := statement_eq_ok.1 read
  obtain ⟨_, parsed⟩ := Grammar.statementAt_sound (fun _ => True) limit (Lexeme.tokens L) query rest
    (fun _ _ => trivial) trivial ran
  exact Node.wellShaped_of_parsed parsed trivial

/-- `select distinct on ( a ) count ( distinct a , b ) , a in ( ) union values ( 1 )` -/
theorem statement_wellShaped_union :
    let L : List Lexeme := [.ofText .command "select" 0, .ofText .command "distinct on" 7,
      .ofText .openParen "(" 19, .ofText .identifier "a" 21, .ofText .closeParen ")" 23,
      .ofText .identifier "count" 25, .ofText .openParen "(" 31, .ofText .command "distinct" 33,
      .ofText .identifier "a" 42, .ofText .comma "," 44, .ofText .identifier "b" 46,
      .ofText .closeParen ")" 48, .ofText .comma "," 50, .ofText .identifier "a" 52,
      .ofText .command "in" 54, .ofText .openParen "(" 57, .ofText .closeParen ")" 59,
      .ofText .command "union" 61, .ofText .command "values" 67, .ofText .openParen "(" 74,
      .ofText .literal "1" 76, .ofText .closeParen ")" 78]
    ∃ query, (start L 5).statement.1 = .ok query ∧
      ((Node.query query).walk.filter fun m => m.kind == "tuple" || m.kind == "value_list").length = 4 ∧
      ∀ m ∈ (Node.query query).walk, m.WellShaped := by
  intro L
  obtain ⟨query, read, four⟩ : ∃ query, (start L 5).statement.1 = .ok query ∧
      ((Node.query query).walk.filter fun m =>
        m.kind == "tuple" || m.kind == "value_list").length = 4 := by
    refine ⟨_, statement_eq_ok.2 ⟨_, rfl⟩, ?_⟩
    decide +kernel
  exact ⟨query, read, four, statement_wellShaped read⟩

end Session

end SqlQuery
