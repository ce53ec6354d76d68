import SqlQuery.Proofs.Scanning.Literal
import SqlQuery.Proofs.Written.Shape

/-!
Legible trees: what their text needs beyond the shape, so that no piece of it is taken for another
one or read together with the next.
-/

namespace SqlQuery

/-- The text of a number, with a sign of its own or without. -/
def IsNumber (text : List Char) : Prop :=
  IsNumberText text ∨ ∃ digits, text = '-' :: digits ∧ IsNumberText digits

def Literal.Legible : Literal → Prop
  | .number text => IsNumber text.toList
  | .string value => isClosedBody value.toList = true
  | _ => True

namespace Expr

/-- A number with a sign of its own is written first. -/
def leadsSigned (e : Expr) : Bool :=
  match e.first with
  | .literal (.number text) => text.toList.head? == some '-'
  | _ => false

/-- A number without a sign is written first. -/
def leadsUnsigned (e : Expr) : Bool :=
  match e.first with
  | .literal (.number text) => text.toList.head? != some '-'
  | _ => false

/-- A star for all columns is written first. -/
def leadsStar (e : Expr) : Bool :=
  match e.first with
  | .column ref => ref == .wildcard
  | _ => false

def leadsNot (e : Expr) : Bool :=
  match e.first with
  | .unary operator _ => operator == "not"
  | _ => false

/-- A minus or a plus is written first, and then the number without a sign that it is applied to. -/
def leadsLooseSign (e : Expr) : Bool :=
  match e.first with
  | .unary operator operand => ["-", "+"].contains operator && operand.leadsUnsigned
  | _ => false

/-- May be written after this token. A sign belongs to a number where an operand is expected, and is an
operator elsewhere. -/
structure Follows (previous : Option Token) (e : Expr) : Prop where
  clear : Clear previous
  operand : e.leadsSigned = true → previous.all Token.expectsOperand = true
  sign : e.leadsLooseSign = true → previous.all Token.expectsOperand = false
  wildcard : e.leadsStar = true → previous.all Token.precedesWildcard = true

/-- May be written after every token but `array` that expects no operand. -/
def IsSettled (e : Expr) : Prop := e.leadsSigned = false ∧ e.leadsStar = false

instance (e : Expr) : Decidable e.IsSettled :=
  inferInstanceAs (Decidable (e.leadsSigned = false ∧ e.leadsStar = false))

/-- What the text of a value needs by itself. In square brackets names end like an array does. -/
def Legible (d : Dialect) : Expr → Prop
  | .literal value => value.Legible
  | .parameter name => name.toList ≠ [] ∧ ∀ c ∈ name.toList, Text.isWordChar c = true
  | .unary operator operand => operator ∈ Power.signs → operand.leadsStar = false
  | .binary left operator right => (∀ field, left = .raw field → IsWordText field.toList) ∧
      (operator = "is" → right.leadsNot = false) ∧
      ((∃ power, (operator, power) ∈ Power.symbols) → right.leadsStar = false)
  | .array content => (∀ e ∈ content.listed.head?, e.leadsStar = false) ∧
      (d.closer = ']' → Mark.endsQuoted d (content.marks d) = false)
  | .cast input ref => input.isPrimary = true → ref.argument = none →
      Keyword.isExtendable ref.name = false
  | .type ref => ref.name ∈ longTypes ∨ IsWordText ref.name.toList
  | .specifiedString specifier value =>
    (∃ text, value = .string text ∧ isClosedBody text.toList = true) ∧
      (specifier ∈ tightSpecifiers ∨ IsWordText specifier.toList)
  | _ => True

end Expr

def Child.value? : Child → Option Expr
  | (_, .expr e) => some e
  | _ => none

namespace Node

/-- The values of a node that are written right after a token which expects an operand. -/
def awaited : Node → List Expr
  | .expr (.binary _ _ right) => [right]
  | .expr (.between _ lower upper _) => [lower, upper]
  | .select ⟨some (.on _), items⟩ => items.tail.map SelectItem.value
  | .select ⟨_, items⟩ => items.map SelectItem.value
  | .selectItem _ | .fetch _ | .frame ⟨_, _, none⟩ => []
  | n => n.children.filterMap Child.value?

theorem item_below {c : SelectClause} {i : SelectItem} (mem : i ∈ c.items) :
    (Node.select c).Below (.expr i.value) := by
  have item : (Node.select c).Below (.selectItem i) :=
    .child "item" (List.mem_append_right _ (List.mem_map_of_mem mem))
  have value : (Node.selectItem i).Below (.expr i.value) := .child "value" List.mem_cons_self
  exact below_of_mem_walk (mem_walk.2 (.inr item)) value

theorem awaited_below {n : Node} {e : Expr} (h : e ∈ n.awaited) : n.Below (.expr e) := by
  unfold awaited at h
  split at h
  case h_1 =>
    obtain rfl := List.mem_singleton.1 h
    exact .child "right" (by simp [children, Expr.children])
  case h_2 =>
    simp only [List.mem_cons, List.not_mem_nil, or_false] at h
    rcases h with rfl | rfl
    · exact .child "lower" (by simp [children, Expr.children])
    · exact .child "upper" (by simp [children, Expr.children])
  case h_3 =>
    obtain ⟨i, mem, rfl⟩ := List.mem_map.1 h
    exact item_below (List.mem_of_mem_tail mem)
  case h_4 =>
    obtain ⟨i, mem, rfl⟩ := List.mem_map.1 h
    exact item_below mem
  case h_5 | h_6 | h_7 => cases h
  case h_8 =>
    obtain ⟨⟨role, m⟩, mem, same⟩ := List.mem_filterMap.1 h
    cases m with
    | expr e' => exact .child role (Option.some.inj same ▸ mem)
    | _ => cases same

/-- What the text of a node needs by itself. -/
def LegibleAlone (d : Dialect) : Node → Prop
  | .expr e => e.Legible d
  | .select c => ∀ values, c.distinct = some (.on values) → ∀ i ∈ c.items.head?, i.value.IsSettled
  | .frame f => f.stop = none → ∀ e ∈ f.start.offset?, e.IsSettled
  | .fetch f => ∀ e ∈ f.count, e.IsSettled
  | _ => True

/-- What the text of a node needs: none of its signs is read together with a number after it. -/
structure Legible (d : Dialect) (n : Node) : Prop where
  alone : n.LegibleAlone d
  signs : ∀ e ∈ n.awaited, e.leadsLooseSign = false

end Node

namespace Child

theorem values_each (role : String) (es : List Expr) :
    (each role .expr es).filterMap value? = es := by
  induction es with
  | nil => rfl
  | cons e es ih => exact congrArg (e :: ·) ih

theorem values_names (role : String) (names : List String) :
    (each role .identifier names).filterMap value? = [] := by
  induction names with
  | nil => rfl
  | cons name names ih => exact ih

theorem values_maybe (role : String) (o : Option Expr) :
    (maybe role .expr o).filterMap value? = o.toList := by
  cases o <;> rfl

end Child

end SqlQuery
