import SqlQuery.Grammar.Value
import SqlQuery.Proofs.Casing.Text

/-!
Trees in lowercase. Operators and the kinds of joins are left as they are: they come from keywords
and symbols, so that trees which agree in lowercase have the very same ones.
-/

namespace SqlQuery

open Text

def Literal.lower : Literal → Literal
  | .number text => .number (Text.lower text)
  | .string value => .string (Text.lower value)
  | .boolean value => .boolean value
  | .null => .null

def ColumnRef.lower (ref : ColumnRef) : ColumnRef :=
  ⟨ref.namespaces.map Text.lower, Text.lower ref.column⟩

theorem ColumnRef.lower_wildcard : ColumnRef.wildcard.lower = ColumnRef.wildcard := by decide

def TableRef.lower (ref : TableRef) : TableRef :=
  ⟨ref.namespaces.map Text.lower, Text.lower ref.table⟩

def SourceAlias.lower (a : SourceAlias) : SourceAlias :=
  ⟨Text.lower a.name, a.columns.map Text.lower⟩

mutual

/-- The value with every text in lowercase but those of operators. -/
def Expr.lower : Expr → Expr
  | .literal value => .literal value.lower
  | .raw text => .raw (Text.lower text)
  | .column ref => .column ref.lower
  | .function call => .function call.lower
  | .unary operator operand => .unary operator operand.lower
  | .binary left operator right => .binary left.lower operator right.lower
  | .parameter name => .parameter (Text.lower name)
  | .array content => .array content.lower
  | .tuple values => .tuple (lowerExprs values)
  | .list values => .list (lowerExprs values)
  | .case subject switch => .case (lowerExpr? subject) switch.lower
  | .cast input type => .cast input.lower type.lower
  | .paren inner => .paren inner.lower
  | .between operand lower upper negated => .between operand.lower lower.lower upper.lower negated
  | .type type => .type type.lower
  | .specifiedString specifier value => .specifiedString (Text.lower specifier) value.lower
  | .inlineQuery query => .inlineQuery query.lower

def lowerExprs : List Expr → List Expr
  | [] => []
  | e :: es => e.lower :: lowerExprs es

def lowerExpr? : Option Expr → Option Expr
  | none => none
  | some e => some e.lower

def lowerValues? : Option (List Expr) → Option (List Expr)
  | none => none
  | some es => some (lowerExprs es)

def FunctionCall.lower : FunctionCall → FunctionCall
  | ⟨namespaces, name, argument, window⟩ =>
    ⟨namespaces.map Text.lower, Text.lower name, lowerExpr? argument, lowerOver? window⟩

def TypeRef.lower : TypeRef → TypeRef
  | ⟨name, argument⟩ => ⟨Text.lower name, lowerExpr? argument⟩

def Switch.lower : Switch → Switch
  | ⟨branches, otherwise⟩ => ⟨lowerBranches branches, lowerExpr? otherwise⟩

def lowerBranches : List Branch → List Branch
  | [] => []
  | b :: bs => b.lower :: lowerBranches bs

def Branch.lower : Branch → Branch
  | ⟨key, value⟩ => ⟨key.lower, value.lower⟩

def lowerOver? : Option Over → Option Over
  | none => none
  | some o => some o.lower

def Over.lower : Over → Over
  | .named name => .named (Text.lower name)
  | .window spec => .window spec.lower

def WindowSpec.lower : WindowSpec → WindowSpec
  | ⟨partition, order, frame⟩ => ⟨lowerValues? partition, lowerOrder? order, lowerFrame? frame⟩

def lowerOrder? : Option (List OrderItem) → Option (List OrderItem)
  | none => none
  | some items => some (lowerOrderItems items)

def lowerOrderItems : List OrderItem → List OrderItem
  | [] => []
  | i :: is => i.lower :: lowerOrderItems is

def OrderItem.lower : OrderItem → OrderItem
  | ⟨value, direction, nulls⟩ => ⟨value.lower, direction, nulls⟩

def lowerFrame? : Option Frame → Option Frame
  | none => none
  | some f => some f.lower

def Frame.lower : Frame → Frame
  | ⟨unit, start, stop⟩ => ⟨unit, start.lower, lowerBound? stop⟩

def lowerBound? : Option Bound → Option Bound
  | none => none
  | some b => some b.lower

def Bound.lower : Bound → Bound
  | .unboundedPreceding => .unboundedPreceding
  | .unboundedFollowing => .unboundedFollowing
  | .currentRow => .currentRow
  | .preceding offset => .preceding offset.lower
  | .following offset => .following offset.lower

/-- The query with every text in lowercase but those of operators and of the kinds of joins. -/
def Query.lower : Query → Query
  | .simple select => .simple select.lower
  | .binary left operator right => .binary left.lower operator right.lower
  | .values rows => .values (lowerRows rows)

def lowerRows : List (List Expr) → List (List Expr)
  | [] => []
  | row :: rows => lowerExprs row :: lowerRows rows

def Select.lower : Select → Select
  | ⟨commonTables, clause, source, condition, groupBy, having, windows, orderBy, limit, fetch,
      lock⟩ =>
    ⟨lowerWith? commonTables, clause.lower, lowerFrom? source, lowerExpr? condition,
      lowerValues? groupBy, lowerExpr? having, lowerWindows? windows, lowerOrder? orderBy,
      lowerLimit? limit, lowerFetch? fetch, lock⟩

def lowerWith? : Option With → Option With
  | none => none
  | some w => some w.lower

def With.lower : With → With
  | ⟨recursive, tables⟩ => ⟨recursive, lowerTables tables⟩

def lowerTables : List CommonTable → List CommonTable
  | [] => []
  | t :: ts => t.lower :: lowerTables ts

def CommonTable.lower : CommonTable → CommonTable
  | ⟨header, materialized, query⟩ => ⟨header.lower, materialized, query.lower⟩

def SelectClause.lower : SelectClause → SelectClause
  | ⟨distinct, items⟩ => ⟨lowerDistinct? distinct, lowerItems items⟩

def lowerDistinct? : Option Distinct → Option Distinct
  | none => none
  | some d => some d.lower

def Distinct.lower : Distinct → Distinct
  | .rows => .rows
  | .on values => .on (lowerExprs values)

def lowerItems : List SelectItem → List SelectItem
  | [] => []
  | i :: is => i.lower :: lowerItems is

def SelectItem.lower : SelectItem → SelectItem
  | ⟨value, aliasName⟩ => ⟨value.lower, aliasName.map Text.lower⟩

def lowerFrom? : Option From → Option From
  | none => none
  | some f => some f.lower

def From.lower : From → From
  | ⟨source, joins⟩ => ⟨source.lower, lowerJoins joins⟩

def lowerJoins : List Join → List Join
  | [] => []
  | j :: js => j.lower :: lowerJoins js

def Join.lower : Join → Join
  | ⟨kind, lateral, source, condition⟩ =>
    ⟨kind, lateral, source.lower, lowerCondition? condition⟩

def lowerCondition? : Option JoinCondition → Option JoinCondition
  | none => none
  | some c => some c.lower

def JoinCondition.lower : JoinCondition → JoinCondition
  | .on condition => .on condition.lower
  | .columns names => .columns (names.map Text.lower)

def Source.lower : Source → Source
  | ⟨data, sourceAlias⟩ => ⟨data.lower, sourceAlias.map SourceAlias.lower⟩

def DataSource.lower : DataSource → DataSource
  | .table table => .table table.lower
  | .subQuery query => .subQuery query.lower
  | .function call => .function call.lower

def lowerWindows? : Option (List WindowDef) → Option (List WindowDef)
  | none => none
  | some ws => some (lowerWindowDefs ws)

def lowerWindowDefs : List WindowDef → List WindowDef
  | [] => []
  | w :: ws => w.lower :: lowerWindowDefs ws

def WindowDef.lower : WindowDef → WindowDef
  | ⟨name, spec⟩ => ⟨Text.lower name, spec.lower⟩

def lowerLimit? : Option Limit → Option Limit
  | none => none
  | some l => some l.lower

def Limit.lower : Limit → Limit
  | ⟨limit, offset⟩ => ⟨lowerExpr? limit, lowerExpr? offset⟩

def lowerFetch? : Option Fetch → Option Fetch
  | none => none
  | some f => some f.lower

def Fetch.lower : Fetch → Fetch
  | ⟨position, count, unit⟩ => ⟨position, lowerExpr? count, unit⟩

end

/-! What is listed and what may be missing, in terms of its parts. -/

@[simp] theorem lowerExprs_eq (es : List Expr) : lowerExprs es = es.map Expr.lower :=
  eq_map_of_cons rfl (fun _ _ => rfl) es

@[simp] theorem lowerBranches_eq (bs : List Branch) : lowerBranches bs = bs.map Branch.lower :=
  eq_map_of_cons rfl (fun _ _ => rfl) bs

@[simp] theorem lowerOrderItems_eq (is : List OrderItem) :
    lowerOrderItems is = is.map OrderItem.lower :=
  eq_map_of_cons rfl (fun _ _ => rfl) is

@[simp] theorem lowerRows_eq (rows : List (List Expr)) :
    lowerRows rows = rows.map (List.map Expr.lower) :=
  eq_map_of_cons rfl (fun row rows => by rw [lowerRows, lowerExprs_eq]) rows

@[simp] theorem lowerTables_eq (ts : List CommonTable) :
    lowerTables ts = ts.map CommonTable.lower :=
  eq_map_of_cons rfl (fun _ _ => rfl) ts

@[simp] theorem lowerItems_eq (is : List SelectItem) : lowerItems is = is.map SelectItem.lower :=
  eq_map_of_cons rfl (fun _ _ => rfl) is

@[simp] theorem lowerJoins_eq (js : List Join) : lowerJoins js = js.map Join.lower :=
  eq_map_of_cons rfl (fun _ _ => rfl) js

@[simp] theorem lowerWindowDefs_eq (ws : List WindowDef) :
    lowerWindowDefs ws = ws.map WindowDef.lower :=
  eq_map_of_cons rfl (fun _ _ => rfl) ws

@[simp] theorem lowerExpr?_eq (o : Option Expr) : lowerExpr? o = o.map Expr.lower := by
  cases o <;> rfl

@[simp] theorem lowerValues?_eq (o : Option (List Expr)) :
    lowerValues? o = o.map (List.map Expr.lower) := by
  cases o <;> simp [lowerValues?]

@[simp] theorem lowerOver?_eq (o : Option Over) : lowerOver? o = o.map Over.lower := by
  cases o <;> rfl

@[simp] theorem lowerOrder?_eq (o : Option (List OrderItem)) :
    lowerOrder? o = o.map (List.map OrderItem.lower) := by
  cases o <;> simp [lowerOrder?]

@[simp] theorem lowerFrame?_eq (o : Option Frame) : lowerFrame? o = o.map Frame.lower := by
  cases o <;> rfl

@[simp] theorem lowerBound?_eq (o : Option Bound) : lowerBound? o = o.map Bound.lower := by
  cases o <;> rfl

@[simp] theorem lowerWith?_eq (o : Option With) : lowerWith? o = o.map With.lower := by
  cases o <;> rfl

@[simp] theorem lowerDistinct?_eq (o : Option Distinct) :
    lowerDistinct? o = o.map Distinct.lower := by
  cases o <;> rfl

@[simp] theorem lowerFrom?_eq (o : Option From) : lowerFrom? o = o.map From.lower := by
  cases o <;> rfl

@[simp] theorem lowerCondition?_eq (o : Option JoinCondition) :
    lowerCondition? o = o.map JoinCondition.lower := by
  cases o <;> rfl

@[simp] theorem lowerWindows?_eq (o : Option (List WindowDef)) :
    lowerWindows? o = o.map (List.map WindowDef.lower) := by
  cases o <;> simp [lowerWindows?]

@[simp] theorem lowerLimit?_eq (o : Option Limit) : lowerLimit? o = o.map Limit.lower := by
  cases o <;> rfl

@[simp] theorem lowerFetch?_eq (o : Option Fetch) : lowerFetch? o = o.map Fetch.lower := by
  cases o <;> rfl

/-! The values that literals stand for. No letter is a quote or escapes one. -/

theorem isQuoted_lower (text : String) : isQuoted (Text.lower text) = isQuoted text := by
  rw [isQuoted, toList_lower, head?_lowerChars_beq rfl, isQuoted]

theorem withoutQuotes_lower (cs : List Char) :
    withoutQuotes (lowerChars cs) = lowerChars (withoutQuotes cs) := by
  cases cs with
  | nil => rfl
  | cons c body =>
    by_cases quote : c = '\x27'
    · subst quote
      have closed : ((lowerChars body).getLast? == some '\x27') =
          (body.getLast? == some '\x27') := by
        rw [lowerChars, List.getLast?_map]
        cases body.getLast? with
        | none => rfl
        | some last => simpa using toLower_beq (c := last) (x := '\x27') rfl
      show withoutQuotes ('\x27' :: lowerChars body) = _
      rw [withoutQuotes, closed, withoutQuotes]
      split
      · exact List.map_dropLast.symm
      · rfl
    · have other : c.toLower ≠ '\x27' := toLower_ne rfl quote
      simp [withoutQuotes, quote, other]

theorem unescape_lower (cs : List Char) : unescape (lowerChars cs) = lowerChars (unescape cs) := by
  induction cs using unescape.induct with
  | case1 => simp [unescape]
  | case2 cs ih =>
    show unescape ('\\' :: '\x27' :: lowerChars cs) = _
    rw [unescape, ih, unescape]
    rfl
  | case3 c cs plain ih =>
    have plain' : c.toLower ≠ '\x27' := toLower_ne rfl plain
    show unescape ('\\' :: c.toLower :: lowerChars cs) = _
    rw [unescape, ih, unescape]
    · rfl
    · exact plain
    · exact plain'
  | case4 cs ih =>
    show unescape ('\x27' :: lowerChars cs) = _
    rw [unescape, drop_lowerChars, ih, unescape]
    rfl
  | case5 c cs no_quote no_escape plain ih =>
    have plain' : c.toLower ≠ '\x27' := toLower_ne rfl plain
    have alone := not_followed_lower rfl no_escape
    rw [lowerChars_cons, unescape, ih, unescape]
    · rfl
    · exact no_quote
    · exact no_escape
    · exact plain
    · exact fun ds => alone '\x27' ds
    · exact alone
    · exact plain'

theorem unquote_lower (cs : List Char) : unquote (lowerChars cs) = Text.lower (unquote cs) := by
  rw [unquote, withoutQuotes_lower, unescape_lower, unquote, lower_ofList]

theorem Literal.ofText_lower (text : String) :
    Literal.ofText (Text.lower text) = (Literal.ofText text).lower := by
  rw [ofText, isQuoted_lower, toList_lower, unquote_lower, ofText]
  split <;> rfl

theorem Expr.ofSpecified_lower (text : String) :
    Expr.ofSpecified (Text.lower text) = (Expr.ofSpecified text).lower := by
  have caseless : Caseless (· != '\x27') := (Caseless.beq rfl).not
  simp only [ofSpecified, toList_lower, caseless.takeWhile, caseless.dropWhile, unquote_lower,
    Expr.lower, Literal.lower, lower_ofList]

end SqlQuery
