import SqlQuery.Tree.Walk

/-!
Paths down a tree and what they cost: two levels for what stands in brackets of its own, and one for an
operator in front of its operand.
-/

namespace SqlQuery

/-- The parts are each a child of the one before, and the first is a child of the node. -/
inductive Node.Path : Node → List Child → Prop
  | nil {n : Node} : Path n []
  | cons {n : Node} {c : Child} {path : List Child} (mem : c ∈ n.children) (below : Path c.2 path) :
      Path n (c :: path)

namespace Child

/-- Parentheses, a tuple, a query that is a value, a `case`, a query that is a source, or a common
table. The rows of a list of values are no tuples of their own. -/
def isNested : Child → Bool
  | (role, .expr (.tuple _)) => role != "tuple"
  | (_, .expr (.paren _)) | (_, .expr (.inlineQuery _)) | (_, .expr (.case _ _)) => true
  | (role, .query _) => role == "datasource"
  | (_, .commonTable _) => true
  | _ => false

/-- A sign or `not` in front of an operand. -/
def isPrefixed : Child → Bool
  | (_, .expr (.unary operator _)) => ["-", "+", "~", "not"].contains operator
  | _ => false

/-- The levels that the part takes. -/
def cost (c : Child) : Nat := 2 * c.isNested.toNat + c.isPrefixed.toNat

/-- The levels that are taken along a path. -/
def costs : List Child → Nat
  | [] => 0
  | c :: path => c.cost + costs path

theorem costs_eq (path : List Child) :
    costs path = 2 * path.countP isNested + path.countP isPrefixed := by
  induction path with
  | nil => rfl
  | cons c path ih =>
    have count (p : Child → Bool) : (c :: path).countP p = path.countP p + (p c).toNat := by
      rw [List.countP_cons]
      cases p c <;> rfl
    rw [count, count, costs, ih, cost]
    omega

end Child

end SqlQuery
