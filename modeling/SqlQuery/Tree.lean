/-!
Queries as trees. Names are kept as they are meant, without quotes; keywords and operators as text.
-/

namespace SqlQuery

/-- Numbers keep their digits as text. -/
inductive Literal where
  | number (text : String)
  | string (value : String)
  | boolean (value : Bool)
  | null
  deriving DecidableEq, Repr

/-- A column, or all columns if its name is the wildcard. -/
structure ColumnRef where
  namespaces : List String
  column : String
  deriving DecidableEq, Repr

def wildcardName : String := "*"

def ColumnRef.wildcard : ColumnRef := ⟨[], wildcardName⟩

structure TableRef where
  namespaces : List String
  table : String
  deriving DecidableEq, Repr

structure SourceAlias where
  name : String
  columns : List String
  deriving DecidableEq, Repr

inductive SortDirection where
  | asc
  | desc
  deriving DecidableEq, Repr

inductive NullsPosition where
  | first
  | last
  deriving DecidableEq, Repr

inductive FrameUnit where
  | rows
  | range
  | groups
  deriving DecidableEq, Repr

inductive FetchPosition where
  | first
  | next
  deriving DecidableEq, Repr

inductive FetchUnit where
  | rowsOnly
  | percent
  | withTies
  deriving DecidableEq, Repr

inductive LockMode where
  | update
  | noKeyUpdate
  | share
  | keyShare
  deriving DecidableEq, Repr

mutual

inductive Expr where
  | literal (value : Literal)
  | raw (text : String)
  | column (ref : ColumnRef)
  | function (call : FunctionCall)
  | unary (operator : String) (operand : Expr)
  | binary (left : Expr) (operator : String) (right : Expr)
  | parameter (name : String)
  | array (content : Expr)
  | tuple (values : List Expr)
  | list (values : List Expr)
  | case (subject : Option Expr) (switch : Switch)
  | cast (input : Expr) (type : TypeRef)
  | paren (inner : Expr)
  | between (operand lower upper : Expr) (negated : Bool)
  | type (type : TypeRef)
  | specifiedString (specifier : String) (value : Literal)
  | inlineQuery (query : Query)

structure FunctionCall where
  namespaces : List String
  name : String
  argument : Option Expr
  window : Option Over

structure TypeRef where
  name : String
  argument : Option Expr

/-- The branches of a `case` and what it gives when none applies. -/
structure Switch where
  branches : List Branch
  otherwise : Option Expr

structure Branch where
  key : Expr
  value : Expr

inductive Over where
  | named (name : String)
  | window (spec : WindowSpec)

structure WindowSpec where
  partition : Option (List Expr)
  order : Option (List OrderItem)
  frame : Option Frame

structure OrderItem where
  value : Expr
  direction : SortDirection
  nulls : Option NullsPosition

structure Frame where
  unit : FrameUnit
  start : Bound
  stop : Option Bound

inductive Bound where
  | unboundedPreceding
  | unboundedFollowing
  | currentRow
  | preceding (offset : Expr)
  | following (offset : Expr)

inductive Query where
  | simple (select : Select)
  | binary (left : Query) (operator : String) (right : Query)
  | values (rows : List (List Expr))

/-- One select with its clauses, in the order in which they are written. -/
structure Select where
  commonTables : Option With
  clause : SelectClause
  source : Option From
  condition : Option Expr
  groupBy : Option (List Expr)
  having : Option Expr
  windows : Option (List WindowDef)
  orderBy : Option (List OrderItem)
  limit : Option Limit
  fetch : Option Fetch
  lock : Option LockMode

structure With where
  recursive : Bool
  tables : List CommonTable

structure CommonTable where
  header : SourceAlias
  materialized : Option Bool
  query : Query

structure SelectClause where
  distinct : Option Distinct
  items : List SelectItem

inductive Distinct where
  | rows
  | on (values : List Expr)

structure SelectItem where
  value : Expr
  aliasName : Option String

structure From where
  source : Source
  joins : List Join

structure Join where
  kind : String
  lateral : Bool
  source : Source
  condition : Option JoinCondition

inductive JoinCondition where
  | on (condition : Expr)
  | columns (names : List String)

structure Source where
  data : DataSource
  sourceAlias : Option SourceAlias

inductive DataSource where
  | table (table : TableRef)
  | subQuery (query : Query)
  | function (call : FunctionCall)

structure WindowDef where
  name : String
  spec : WindowSpec

structure Limit where
  limit : Option Expr
  offset : Option Expr

structure Fetch where
  position : FetchPosition
  count : Option Expr
  unit : FetchUnit

end

namespace Expr

def number (text : String) : Expr := .literal (.number text)

def string (value : String) : Expr := .literal (.string value)

def columnNamed (name : String) : Expr := .column ⟨[], name⟩

/-- Can be the operand of a cast written with two colons. -/
def isPrimary : Expr → Bool
  | .literal _ | .column _ | .function _ | .parameter _ | .array _ | .tuple _ | .case _ _
  | .paren _ | .specifiedString _ _ | .inlineQuery _ | .cast _ _ => true
  | _ => false

end Expr

/-- A window definition has to say how rows are split or ordered. -/
def WindowSpec.hasBounds (w : WindowSpec) : Bool := w.partition.isSome || w.order.isSome

namespace SelectItem

/-- The alias, unless it repeats the name of the column. -/
def effectiveAlias (item : SelectItem) : Option String :=
  item.aliasName.filter fun name =>
    match item.value with
    | .column ref => ref.column != name
    | _ => true

end SelectItem

namespace Source

/-- The alias, unless it repeats the name of the table and renames no column. -/
def effectiveAlias (source : Source) : Option SourceAlias :=
  source.sourceAlias.filter fun a =>
    match source.data with
    | .table ref => ref.table != a.name || !a.columns.isEmpty
    | _ => true

end Source

/-- A recursion over trees that takes the items of a list one after another is a map there. -/
theorem eq_map_of_cons {α β : Type} {f : α → β} {g : List α → List β} (nil : g [] = [])
    (cons : ∀ a as, g (a :: as) = f a :: g as) (as : List α) : g as = as.map f := by
  induction as with
  | nil => exact nil
  | cons a as ih => rw [cons, ih, List.map_cons]

end SqlQuery
