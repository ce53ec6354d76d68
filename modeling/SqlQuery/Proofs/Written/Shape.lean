import SqlQuery.Grammar.Clause
import SqlQuery.Grammar.Query
import SqlQuery.Proofs.Written.Tokens
import SqlQuery.Proofs.Tree.Below

/-!
The shape of trees that the grammar gives: what stands where a value is read, how tightly the
operators of an expression bind, and what every part of a query has to have.
-/

namespace SqlQuery

namespace Power

/-- Above the power of every operator. -/
def unbounded : Nat := 20

/-- The power of an operator between operands, by its text. -/
def infix? (operator : String) : Option Nat := (keywords ++ symbols).lookup operator

def between : Nat := 9

def cast : Nat := 19

def prefix? (operator : String) : Option Nat :=
  if signs.contains operator then some 17 else if operator == "not" then some 5 else none

theorem infix?_mem {operator : String} {power : Nat} (h : infix? operator = some power) :
    (operator, power) ∈ keywords ++ symbols := by
  obtain ⟨before, after, split, _⟩ := List.lookup_eq_some_iff.1 h
  rw [split]
  simp

/-- The operators in front of an operand, by their texts. -/
def prefixes : List (String × Nat) := [("-", 17), ("+", 17), ("~", 17), ("not", 5)]

theorem prefix?_mem {operator : String} {power : Nat} (found : prefix? operator = some power) :
    (operator, power) ∈ prefixes := by
  unfold prefix? at found
  split at found
  · rename_i sign
    obtain rfl := Option.some.inj found
    simp only [signs, List.contains_eq_mem, List.mem_cons, List.not_mem_nil, or_false,
      decide_eq_true_eq] at sign
    rcases sign with rfl | rfl | rfl <;> decide
  split at found
  · rename_i word
    obtain rfl := Option.some.inj found
    obtain rfl := beq_iff_eq.1 word
    decide
  · cases found

def infixPower (operator : String) : Nat := (infix? operator).getD 0

/-- What stands to the right of these is no single value. -/
def special : List String := ["::", "between", "not between"]

def isMembership (operator : String) : Bool := operator == "in" || operator == "not in"

end Power

namespace Expr

/-- May stand where the grammar reads a value. -/
def isValue : Expr → Bool
  | .raw _ | .type _ | .list _ => false
  | .unary operator _ => operator != "distinct"
  | .binary _ operator _ => operator != "from"
  | .tuple values => 2 ≤ values.length
  | _ => true

/-- The values that are written in a row. -/
def listed : Expr → List Expr
  | .list values => values
  | e => [e]

def isTuple : Expr → Bool
  | .tuple _ => true
  | _ => false

/-- The least power of the operators that its first operand is followed by. -/
def spine : Expr → Nat
  | .binary left operator _ => min (Power.infixPower operator) left.spine
  | .between operand _ _ _ => min Power.between operand.spine
  | .cast input _ => if input.isPrimary then min Power.cast input.spine else Power.unbounded
  | _ => Power.unbounded

/-- An operator of this power or more after it would belong to its last operand. -/
def edge : Expr → Nat
  | .binary _ operator right =>
    if Power.isMembership operator && right.isTuple then Power.unbounded
    else min (Power.infixPower operator + 1) right.edge
  | .between _ _ upper _ => min (Power.between + 1) upper.edge
  | .unary operator operand =>
    match Power.prefix? operator with
    | some power => min power operand.edge
    | none => Power.unbounded
  | _ => Power.unbounded

/-- The operand that is written first. -/
def first : Expr → Expr
  | .binary left _ _ => left.first
  | .between operand _ _ _ => operand.first
  | .cast input ref => if input.isPrimary then input.first else .cast input ref
  | e => e

/-- The name that is written first, if a name is. -/
def leadName? (e : Expr) : Option String :=
  match e.first with
  | .column ref => some (ref.namespaces.headD ref.column)
  | .function call => some (call.namespaces.headD call.name)
  | .specifiedString specifier _ => some specifier
  | _ => none

/-- Does not begin with one of the words that mean something else in its place. -/
def Avoids (e : Expr) (words : List String) : Prop :=
  ∀ name ∈ e.leadName?, ∀ word ∈ words, Text.sameIgnoringCase name word = false

instance (e : Expr) (words : List String) : Decidable (e.Avoids words) :=
  inferInstanceAs (Decidable (∀ name ∈ e.leadName?, ∀ word ∈ words, Text.sameIgnoringCase name word = false))

end Expr

/-- A name that may name a thing of its own. -/
def IsName (name : String) : Prop := name ≠ wildcardName

/-- A keyword, operator or bare name that is written as it is. -/
def IsPlain (text : String) : Prop := rawText text = .ok text

theorem IsPlain.trim {text : String} (h : IsPlain text) : Text.trim text = text := by
  unfold IsPlain rawText at h
  dsimp only at h
  split at h
  · cases h
  split at h
  · cases h
  · exact Except.ok.inj h

/-- Written as it is, and one name for the grammar. -/
def IsWord (text : String) : Prop := IsPlain text ∧ plainTokens text = [⟨.identifier, text⟩]

theorem IsWord.mark {text : String} (h : IsWord text) :
    (rawMark text).tokens = [⟨.identifier, text⟩] := by
  rw [rawMark, h.1.trim]
  exact h.2

theorem IsWord.ne_wildcard {text : String} (h : IsWord text) : text ≠ wildcardName := by
  rintro rfl
  have other : plainTokens wildcardName ≠ [⟨.identifier, wildcardName⟩] := by decide
  exact other h.2

def IsLower (text : String) : Prop := Text.lower text = text

/-- The names of types that have several words. -/
def longTypes : List String :=
  ["double precision", "character varying", "char varying", "bit varying",
   "timestamp with time zone", "timestamp without time zone", "time with time zone",
   "time without time zone"]

def IsTypeName (name : String) : Prop := name ∈ longTypes ∨ IsWord name ∧ IsLower name

/-- Values of which there is at least one. -/
def AreValues (values : List Expr) : Prop := values ≠ [] ∧ ∀ e ∈ values, e.isValue

/-- The value of a literal lexeme is read back from its text. -/
def Literal.Fits : Literal → Prop
  | .number text => isQuoted text = false
  | .string value => unquote (spellString value) = value
  | _ => True

def FitsSpecifier (specifier : String) (value : Literal) : Prop :=
  if specifier ∈ tightSpecifiers then
    Expr.ofSpecified (specifier ++ String.ofList value.spell) = .specifiedString specifier value
  else IsWord specifier ∧ IsLower specifier ∧ (∃ text, value = .string text) ∧ value.Fits

namespace Expr

/-- One value or a list of several. -/
def IsListing : Expr → Prop
  | .list values => 2 ≤ values.length ∧ AreValues values
  | e => e.isValue

/-- What stands by itself between the parentheses of a call. -/
def IsContent (e : Expr) : Prop := e.IsListing ∧ ∀ v ∈ e.listed.head?, v.Avoids [wildcardName]

/-- The argument of a call of this name. -/
def IsArgument (name : String) (e : Expr) : Prop :=
  e = .column .wildcard ∨ (∃ query, e = .inlineQuery query) ∨
    (∃ content, e = .unary "distinct" content ∧ content.IsListing) ∨
    (∃ field value, e = .binary (.raw field) "from" value ∧ Text.lower name = "extract" ∧
      IsWord field ∧ IsLower field ∧ value.isValue) ∨
    e.IsContent

end Expr

def FunctionCall.Fits (call : FunctionCall) : Prop :=
  IsPlain call.name ∧ IsName call.name ∧ (∀ name ∈ call.namespaces, IsName name) ∧
    ∀ e ∈ call.argument, e.IsArgument call.name

def TypeRef.Fits (type : TypeRef) : Prop :=
  IsTypeName type.name ∧ ∀ e ∈ type.argument, ∃ values, e = .list values ∧ AreValues values

namespace Expr

/-- The operand of an operator in front of it. -/
def IsOperand (operator : String) (operand : Expr) : Prop :=
  match Power.prefix? operator with
  | some power => operand.isValue ∧ power ≤ operand.spine
  | none => operator = "exists" ∧ ∃ query, operand = .inlineQuery query

/-- What `in` finds on its right side, unless it is a list. -/
def IsRightOf (operator : String) (power : Nat) (right : Expr) : Prop :=
  Power.isMembership operator ∧ right.isTuple ∨
    right.isValue ∧ power + 1 ≤ right.spine ∧
      (Power.isMembership operator → (∀ inner, right.first ≠ .paren inner) ∧ ¬ right.first.isTuple)

def Fits : Expr → Prop
  | .literal value => value.Fits
  | .raw text => IsPlain text
  | .column ref => ∀ name ∈ ref.namespaces, IsName name
  | .function call => call.Fits
  | .unary operator operand => operator = "distinct" ∨ operand.IsOperand operator
  | .binary left operator right => operator = "from" ∨
      ∃ power, Power.infix? operator = some power ∧ operator ∉ Power.special ∧ left.isValue ∧
        power < left.edge ∧ right.IsRightOf operator power
  | .array content => (∃ query, content = .inlineQuery query) ∨
      ∃ values, content = .list values ∧ ∀ e ∈ values, e.isValue
  | .tuple values => ∀ e ∈ values, e.isValue
  | .case subject switch => (∀ e ∈ subject, e.isValue) ∧ switch.branches ≠ [] ∧
      ∀ e ∈ switch.otherwise, e.isValue
  | .cast input _ => input.isValue
  | .paren inner => inner.isValue
  | .between operand lower upper _ =>
    (operand.isValue ∧ Power.between < operand.edge) ∧
      (lower.isValue ∧ Power.between + 1 ≤ lower.spine ∧ Power.infixPower "and" < lower.edge) ∧
      upper.isValue ∧ Power.between + 1 ≤ upper.spine
  | .type ref => ref.Fits
  | .specifiedString specifier value => FitsSpecifier specifier value
  | _ => True

end Expr

namespace Bound

/-- The words that start a bound without an offset. -/
def openings : List String := ["unbounded", "current"]

def Fits (b : Bound) : Prop := ∀ e ∈ b.offset?, e.isValue ∧ e.Avoids openings

end Bound

/-- May stand to the right of a set operation. -/
def Query.IsTerm : Query → Prop
  | .simple s => s.commonTables.isNone
  | .values _ => True
  | .binary _ _ _ => False

def Query.Fits : Query → Prop
  | .simple s => (∀ e ∈ s.condition, e.isValue) ∧ (∀ items ∈ s.groupBy, AreValues items) ∧
      (∀ e ∈ s.having, e.isValue) ∧ s.windows ≠ some [] ∧ s.orderBy ≠ some []
  | .binary _ operator right => operator ∈ Grammar.setOperators ∧ right.IsTerm
  | .values rows => rows ≠ [] ∧ ∀ row ∈ rows, AreValues row

def JoinCondition.Fits : JoinCondition → Prop
  | .on condition => condition.isValue
  | .columns names => names ≠ [] ∧ ∀ name ∈ names, IsName name

def SourceAlias.Fits (a : SourceAlias) : Prop := IsName a.name ∧ ∀ name ∈ a.columns, IsName name

def Fetch.Fits (f : Fetch) : Prop :=
  (∀ e ∈ f.count, e.isValue ∧ e.Avoids ["row", "rows"]) ∧ (f.unit = .percent → f.count.isSome)

def WindowSpec.Fits (w : WindowSpec) : Prop :=
  (∀ values ∈ w.partition, AreValues values) ∧ w.order ≠ some []

/-- The kinds of join, as they are written. -/
def joinKinds : List String :=
  ["join", "cross join", "full join", "full outer join", "inner join", "left join",
   "left outer join", "natural full join", "natural full outer join", "natural inner join",
   "natural join", "natural left join", "natural left outer join", "natural right join",
   "natural right outer join", "right join", "right outer join"]

/-- What the grammar asks of a node by itself. -/
def Node.Fits : Node → Prop
  | .expr e => e.Fits
  | .query q => q.Fits
  | .branch b => b.key.isValue ∧ b.value.isValue
  | .select c => c.items ≠ []
  | .selectItem i => i.value.isValue ∧ (∀ name ∈ i.aliasName, IsName name) ∧
      i.effectiveAlias = i.aliasName
  | .distinct (.on values) => AreValues values
  | .join j => j.kind ∈ joinKinds ∧ ∀ condition ∈ j.condition, condition.Fits
  | .source s => s.effectiveAlias = s.sourceAlias
  | .table t => IsName t.table ∧ ∀ name ∈ t.namespaces, IsName name
  | .sourceAlias a => a.Fits
  | .orderItem i => i.value.isValue
  | .overClause (.named name) => IsName name
  | .windowSpec w => w.Fits
  | .frame f => f.start.Fits ∧ ∀ stop ∈ f.stop, stop.Fits
  | .windowDef w => IsName w.name ∧ w.spec.hasBounds
  | .commonTables w => w.tables ≠ []
  | .limit l => (l.limit.isSome ∨ l.offset.isSome) ∧ (∀ e ∈ l.limit, e.isValue) ∧
      ∀ e ∈ l.offset, e.isValue
  | .fetch f => f.Fits
  | _ => True

/-- Every node below and the node itself are as the grammar asks. -/
def Node.WellFormed (n : Node) : Prop := ∀ m ∈ n.walk, m.Fits

theorem Node.WellFormed.below {n m : Node} (h : n.WellFormed) (below : n.Below m) : m.WellFormed :=
  fun k mem => h k (below.walk mem)

end SqlQuery
