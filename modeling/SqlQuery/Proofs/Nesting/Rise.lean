import Mathlib.Data.List.MinMax
import Mathlib.Order.Nat
import SqlQuery.Proofs.Nesting.Path
import SqlQuery.Proofs.Tree.Below
import SqlQuery.Proofs.Written.Shape

/-!
How many levels deeper than a node its parts are read, and the most that this comes to along a path.
-/

namespace SqlQuery

section Paths

variable (step : Node → Child → Nat)

/-- What the steps of a path down from the node come to. -/
def Node.along : Node → List Child → Nat
  | _, [] => 0
  | n, c :: path => step n c + along c.2 path

/-- The most that the steps of a path down come to. -/
def Node.most (n : Node) : Nat :=
  (n.children.attach.map fun c => step n c.1 + most c.1.2).foldr max 0
termination_by n.measure
decreasing_by exact Node.measure_child n c.1 c.2

variable {step}

theorem Node.most_eq (n : Node) :
    n.most step = (n.children.map fun c => step n c + c.2.most step).foldr max 0 := by
  rw [most]
  conv => rhs; rw [← List.attach_map_subtype_val n.children, List.map_map]
  rfl

theorem Node.most_le_iff {n : Node} {bound : Nat} :
    n.most step ≤ bound ↔ ∀ c ∈ n.children, step n c + c.2.most step ≤ bound := by
  rw [most_eq]
  constructor
  · intro low c mem
    refine Nat.le_trans ?_ low
    exact List.le_max_of_le (List.mem_map_of_mem mem) (Nat.le_refl _)
  · intro each
    exact List.max_le_of_forall_le _ _ (List.forall_mem_map.2 each)

/-- Steps that come to no more than two kinds of steps together. -/
theorem Node.most_le_add {least more : Node → Child → Nat} {factor : Nat}
    (each : ∀ n : Node, ∀ c ∈ n.children, step n c ≤ least n c + factor * more n c) (n : Node) :
    n.most step ≤ n.most least + factor * n.most more := by
  induction n using children_induction with
  | step n ih =>
    refine most_le_iff.2 fun c mem => ?_
    have first := most_le_iff.1 (Nat.le_refl (n.most least)) c mem
    have second := Nat.mul_le_mul_left factor (most_le_iff.1 (Nat.le_refl (n.most more)) c mem)
    have own := each n c mem
    have below := ih c mem
    rw [Nat.mul_add] at second
    omega

theorem Node.most_le_iff_path {n : Node} {bound : Nat} :
    n.most step ≤ bound ↔ ∀ path, n.Path path → n.along step path ≤ bound := by
  induction n using children_induction generalizing bound with
  | step n ih =>
    rw [most_le_iff]
    constructor
    · intro each path down
      cases down with
      | nil => exact Nat.zero_le _
      | @cons _ c path mem below =>
        have first := each c mem
        have rest := (ih c mem).1 (Nat.le_refl _) path below
        rw [along]
        omega
    · intro short c mem
      have own : step n c ≤ bound := by
        have := short [c] (.cons mem .nil)
        rw [along, along] at this
        omega
      have rest : c.2.most step ≤ bound - step n c := (ih c mem).2 fun path down => by
        have := short (c :: path) (.cons mem down)
        rw [along] at this
        omega
      omega

end Paths

namespace Node

/-- A tuple takes a level of its own on top of that of its values. -/
def isTuple : Node → Bool
  | .expr (.tuple _) => true
  | _ => false

/-- The levels that are opened up to the argument of a call. -/
def argumentRise : Node → Nat
  | .expr (.inlineQuery _) => 0
  | .expr (.list _) => 1
  | .expr (.unary operator _) => if operator = "distinct" then 1 else 2
  | .expr (.binary _ operator _) => if operator = "from" then 1 else 2
  | .expr (.column ref) => if ref = .wildcard then 1 else 2
  | _ => 2

/-- Values in a list are read a level deeper than the list. -/
def listedRise : Node → Nat
  | .expr (.list _) => 0
  | _ => 1

/-- How many levels deeper than the node a part of it is read, if it is no tuple. -/
def partRise : Node → Child → Nat
  | .expr (.function _), (role, m) =>
    if role = "argument" then m.argumentRise else if role = "name" then 1 else 0
  | .expr (.unary operator _), (role, m) =>
    if role = "expression" ∧ operator ≠ "exists" then m.listedRise else 0
  | .expr (.binary _ operator right), (role, _) =>
    if role = "right" ∧ ¬ (Power.isMembership operator ∧ right.isTuple) then 1 else 0
  | .expr (.array _), (_, m) => 1 - m.listedRise
  | .expr (.tuple _), _ | .expr (.list _), _ => 1
  | .expr (.case _ _), (role, _) => if role = "condition" then 2 else 1
  | .expr (.cast input _), (role, _) =>
    if input.isPrimary then 0 else if role = "input" then 2 else 1
  | .expr (.paren _), _ | .expr (.inlineQuery _), _ => 2
  | .expr (.between _ _ _ _), (role, _) => if role = "expression" then 0 else 1
  | .switch _, (role, _) => if role = "else" then 1 else 0
  | .selectItem _, (role, _) => if role = "value" then 1 else 0
  | .join _, (role, _) => if role = "on" then 1 else 0
  | .branch _, _ | .filter _, _ | .groupBy _, _ | .having _, _ | .orderItem _, _
  | .partitionBy _, _ | .frame _, _ | .limit _, _ | .fetch _, _ => 1
  | .overClause _, (_, .windowSpec _) | .windowDef _, (_, .windowSpec _) => 1
  | .source _, (_, .query _) | .commonTable _, (_, .query _) => 2
  | _, _ => 0

/-- The rows of a list of values are no tuples of their own. -/
def isRows : Node → Bool
  | .query (.values _) => true
  | _ => false

/-- How many levels deeper than the node a part of it is read. -/
def rise (n : Node) (c : Child) : Nat :=
  n.partRise c + (c.2.isTuple && !n.isRows).toNat

end Node

namespace Expr

/-- A test whether rows exist, or for membership in a list that is written out: an operand that ends
with its parenthesis. -/
def isTest : Expr → Bool
  | .unary operator _ => operator == "exists"
  | .binary _ operator right => Power.isMembership operator && right.isTuple
  | _ => false

/-- A cast of a test, which can come after two colons but is not written so. -/
def isLate : Expr → Bool
  | .cast input _ => input.isTest
  | _ => false

end Expr

namespace Node

/-- A cast of a test. -/
def isLate : Node → Bool
  | .expr e => e.isLate
  | _ => false

/-- The levels that are opened where a node is read from what is written of it. -/
def levels (n : Node) : Nat := n.most rise

/-- The same where the node is a part, and a tuple with parentheses of its own. -/
def span (n : Node) : Nat := n.levels + n.isTuple.toNat

/-- The most casts of tests along a path down. -/
def lates (n : Node) : Nat := n.most fun m _ => m.isLate.toNat

/-- What the grammar opens at least: none for a cast that may have come after two colons. -/
def leastRise (n : Node) (c : Child) : Nat := if n.isLate then 0 else n.rise c

/-- The levels that were open at least where the innermost part of the node was read. -/
def need (n : Node) : Nat := n.most leastRise

/-- The levels that a part needs, and that of the tuple that it may be. -/
def toll (n : Node) : Nat := n.need + n.isTuple.toNat

variable {n : Node} {k : Nat}

theorem leastRise_le (n : Node) (c : Child) : n.leastRise c ≤ n.rise c := by
  unfold leastRise
  split
  · exact Nat.zero_le _
  · exact Nat.le_refl _

theorem rise_le (n : Node) (c : Child) : n.rise c ≤ n.partRise c + c.2.isTuple.toNat := by
  unfold rise
  cases c.2.isTuple <;> cases n.isRows <;> simp

/-- A cast of a test is written with parentheses, which take two levels. -/
theorem rise_le_of_isLate (late : n.isLate) : ∀ c ∈ n.children, n.rise c ≤ 2 := by
  cases n with
  | expr e =>
    cases e with
    | cast input ref =>
      have single : (Node.expr input).isTuple = false := by
        cases input <;> first | rfl | cases late
      simp only [children, Expr.children, List.forall_mem_cons, List.not_mem_nil, false_implies,
        implies_true, and_true, rise, partRise, single]
      constructor <;> split <;> simp [isTuple]
    | _ => cases late
  | _ => cases late

/-- What is written nests no more than what is read needs, but for the casts of tests. -/
theorem levels_le (n : Node) : n.levels ≤ n.need + 2 * n.lates := by
  refine most_le_add (fun n c mem => ?_) n
  unfold leastRise
  split
  · rename_i late
    have := rise_le_of_isLate late c mem
    rw [late]
    simpa using this
  · exact Nat.le_add_right _ _

theorem need_le_of_children (h : ∀ c ∈ n.children, n.partRise c + c.2.toll ≤ k) : n.need ≤ k := by
  refine most_le_iff.2 fun c mem => ?_
  have own := h c mem
  have least := n.leastRise_le c
  have most := n.rise_le c
  unfold toll need at own
  omega

theorem need_eq_zero (leaf : n.children = []) : n.need = 0 :=
  Nat.le_zero.1 (need_le_of_children (by simp [leaf]))

theorem need_le_toll (n : Node) : n.need ≤ n.toll := Nat.le_add_right _ _

@[simp] theorem toll_raw (text : String) : (Node.expr (.raw text)).toll = 0 := need_eq_zero rfl

@[simp] theorem toll_identifier (name : String) : (Node.identifier name).toll = 0 := need_eq_zero rfl

end Node

/-- The levels that an expression needs where it is a part. -/
abbrev Expr.toll (e : Expr) : Nat := (Node.expr e).toll

abbrev Query.need (q : Query) : Nat := (Node.query q).need

end SqlQuery
