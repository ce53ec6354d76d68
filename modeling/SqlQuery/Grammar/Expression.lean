import SqlQuery.Grammar.Power
import SqlQuery.Grammar.Rule
import SqlQuery.Grammar.Value

/-!
Rules for expressions: an operand, and then every operator that binds at least as tightly as asked.
-/

namespace SqlQuery.Grammar

open Rule

/-- A query starts `n` places ahead. -/
def startsQuery (n : Nat) : Rule Bool :=
  look n fun t => t.isCommand "select" || t.isCommand "with" || t.isCommand "values"

def values (level : Level) : Rule (List Expr) := commaList (level.expr 0)

/-- Values up to a closing token, which may come at once. -/
def valuesBefore (close : Kind) (level : Level) : Rule (List Expr) := do
  if ← look 0 (isKind close) then return [] else values level

/-- One value stands for itself, several for a list. -/
def argumentValues (level : Level) : Rule Expr := do
  match ← values level with
  | [value] => return value
  | values => return .list values

/-- A query after its opening parenthesis. -/
def nestedQuery (level : Level) : Rule Query := do
  let query ← level.query
  closeParen
  return query

def parenthesizedQuery (scope : Scope) : Rule Expr := do
  openParen
  .inlineQuery <$> scope.enter nestedQuery

/-- A query, a tuple or an expression in parentheses. -/
def parenthesized (scope : Scope) : Rule Expr := do
  if ← startsQuery 1 then parenthesizedQuery scope
  else
    skip
    let values ← scope.enter fun level => do
      let values ← values level
      closeParen
      return values
    match values with
    | [value] => return .paren value
    | values => return .tuple values

/-- The right side of `in`: a list in parentheses is a tuple whatever its length. -/
def membership (scope : Scope) (power : Nat) : Rule Expr := do
  if !(← look 0 (isKind .openParen)) || (← startsQuery 1) then scope.here.expr power
  else
    skip
    .tuple <$> scope.enter fun level => do
      let values ← valuesBefore .closeParen level
      closeParen
      return values

/-- `with time zone` or `without time zone`, where the words are all there. -/
def timeZone : Rule String := do
  let time ← look 1 fun t => t.isWord "time"
  let zone ← look 2 fun t => t.isWord "zone"
  if time && zone then
    if ← eatKeyword "with" then
      skip
      skip
      return " with time zone"
    else if ← eatWord "without" then
      skip
      skip
      return " without time zone"
    else return ""
  else return ""

/-- Further words of a type name. -/
def typeSuffix (name : String) : Rule String := do
  if name == "double" then
    if ← eatWord "precision" then return " precision" else return ""
  else if name == "character" || name == "char" || name == "bit" then
    if ← eatWord "varying" then return " varying" else return ""
  else if name == "timestamp" || name == "time" then timeZone
  else return ""

def typeRef (level : Level) : Rule TypeRef := do
  let name ← expect (fun t => if isName t then some (Text.lower t.text) else none) "type name"
  let suffix ← typeSuffix name
  let argument ← after (eatKind .openParen) do
    let values ← values level
    closeParen
    return .list values
  return ⟨name ++ suffix, argument⟩

/-- An operator with what stands to its right. -/
inductive Suffix where
  | cast (type : TypeRef)
  | between (negated : Bool) (lower upper : Expr)
  | binary (operator : String) (right : Expr)

def Suffix.apply (operand : Expr) : Suffix → Expr
  | .cast type => .cast operand type
  | .between negated lower upper => .between operand lower upper negated
  | .binary operator right => .binary operand operator right

/-- Reads what stands to the right of an operator, whose power there is given. -/
def operatorSuffix (scope : Scope) (operator : String) (power : Nat) : Rule Suffix := do
  if operator == "::" then .cast <$> typeRef scope.here
  else if operator == "between" || operator == "not between" then
    let lower ← scope.here.expr power
    keyword "and"
    let upper ← scope.here.expr power
    return .between (operator == "not between") lower upper
  else if operator == "in" || operator == "not in" then
    .binary operator <$> membership scope power
  else .binary operator <$> scope.here.expr power

/-- The next operator, if its power reaches the floor, and the power for its right side. -/
def operatorFrom (floor : Nat) (t : Token) : Option (String × Nat) :=
  match Power.binary? t with
  | none => none
  | some power => if power < floor then none else some (t.text, Power.right power)

def suffix (scope : Scope) (floor : Nat) : Rule (Option Suffix) := do
  match ← accept (operatorFrom floor) with
  | none => return none
  | some (operator, power) => some <$> operatorSuffix scope operator power

def direction : Rule SortDirection := do
  if ← eatKeyword "desc" then return .desc
  else
    let _ ← eatKeyword "asc"
    return .asc

def nullsPosition : Rule (Option NullsPosition) := do
  if ← eatKeyword "nulls first" then return some .first
  else if ← eatKeyword "nulls last" then return some .last
  else return none

def orderItem (level : Level) : Rule OrderItem :=
  return ⟨← level.expr 0, ← direction, ← nullsPosition⟩

def orderBy (level : Level) : Rule (Option (List OrderItem)) :=
  after (eatKeyword "order by") (commaList (orderItem level))

def bound (level : Level) : Rule Bound := do
  if ← eatWord "unbounded" then
    if ← eatWord "preceding" then return .unboundedPreceding
    word "following"
    return .unboundedFollowing
  else if ← eatWord "current" then
    word "row"
    return .currentRow
  else
    let offset ← level.expr 0
    if ← eatWord "preceding" then return .preceding offset
    word "following"
    return .following offset

def frameUnit? (t : Token) : Option FrameUnit :=
  if t.isWord "rows" then some .rows
  else if t.isWord "range" then some .range
  else if t.isWord "groups" then some .groups
  else none

def frame (level : Level) : Rule (Option Frame) := do
  match ← accept frameUnit? with
  | none => return none
  | some unit =>
    if ← eatKeyword "between" then
      let start ← bound level
      keyword "and"
      let stop ← bound level
      return some ⟨unit, start, some stop⟩
    else return some ⟨unit, ← bound level, none⟩

def windowSpec (level : Level) : Rule WindowSpec := do
  let partition ← after (eatKeyword "partition by") (values level)
  let order ← orderBy level
  let frame ← frame level
  return ⟨partition, order, frame⟩

/-- What follows `over`. -/
def windowRef (scope : Scope) : Rule Over := do
  if ← look 0 (isKind .identifier) then .named <$> name
  else
    require (isKind .openParen) ("window name or " ++ quoted "(")
    .window <$> scope.enter fun level => do
      let spec ← windowSpec level
      closeParen
      return spec

/-- The field of `extract(field from source)`. -/
def extractField (name : String) : Rule (Option String) := do
  let follows ← look 1 fun t => t.isCommand "from"
  if Text.lower name == "extract" && follows then
    let field ← accept fun t =>
      if isKind .identifier t then some (Text.lower t.text) else none
    if field.isSome then skip
    return field
  else return none

/-- The argument of a call, before its closing parenthesis. -/
def argument (name : String) (level : Level) : Rule (Option Expr) := do
  if ← look 0 (isKind .closeParen) then return none
  else if ← eat fun t => isKind .identifier t && t.text == wildcardName then
    return some (.column .wildcard)
  else if ← eatKeyword "distinct" then
    return some (.unary "distinct" (← argumentValues level))
  else if ← startsQuery 0 then return some (.inlineQuery (← level.query))
  else
    match ← extractField name with
    | some field => return some (.binary (.raw field) "from" (← level.expr 0))
    | none => return some (← argumentValues level)

/-- A call after its name. -/
def functionCall (scope : Scope) (namespaces : List String) (name : String) :
    Rule FunctionCall := do
  openParen
  let argument ← scope.enter fun level => do
    let argument ← argument name level
    closeParen
    return argument
  return ⟨namespaces, name, argument, ← after (eatKeyword "over") (windowRef scope)⟩

/-- Names joined by points, one for each token of the bound at most. The wildcard ends its path. -/
def pathUpTo : List Token → Rule (List String)
  | [] => fail "identifier"
  | _ :: bound => do
    let name ← expect (fun t => if isKind .identifier t then some t.text else none) "identifier"
    if name == wildcardName then return [name]
    else if ← eatKind .dot then return name :: (← pathUpTo bound)
    else return [name]

def path : Rule (List String) := fun ts => pathUpTo ts ts

/-- The string after a type name, where one may stand. -/
def typedString (allowed : Bool) : Rule (Option String) :=
  if allowed then
    accept fun t => if isKind .literal t && isQuoted t.text then some t.text else none
  else return none

/-- A column, a call, or a string after a type name. -/
def named (scope : Scope) : Rule Expr := do
  let names ← path
  let namespaces := names.dropLast
  let name := names.getLastD ""
  let isWildcard := name == wildcardName
  let isCall ← look 0 (isKind .openParen)
  if !isWildcard && isCall then .function <$> functionCall scope namespaces name
  else
    match ← typedString (namespaces.isEmpty && !isWildcard) with
    | some text => return .specifiedString (Text.lower name) (.ofText text)
    | none => return .column ⟨namespaces, name⟩

def branch (level : Level) : Rule Branch := do
  let key ← level.expr 0
  keyword "then"
  let value ← level.expr 0
  return ⟨key, value⟩

def caseSubject (level : Level) : Rule (Option Expr) := do
  if ← look 0 fun t => t.isCommand "when" then return none else some <$> level.expr 0

def branches (level : Level) : Rule (List Branch) := do
  let branches ← many (after (eatKeyword "when") (branch level))
  if branches.isEmpty then fail (quoted "when") else return branches

def caseExpr (scope : Scope) : Rule Expr := do
  skip
  scope.enter fun level => do
    let subject ← caseSubject level
    let branches ← branches level
    let otherwise ← after (eatKeyword "else") (level.expr 0)
    keyword "end"
    return .case subject ⟨branches, otherwise⟩

def castExpr (scope : Scope) : Rule Expr := do
  skip
  openParen
  scope.enter fun level => do
    let input ← level.expr 0
    keyword "as"
    let type ← typeRef level
    closeParen
    return .cast input type

def arrayExpr (scope : Scope) : Rule Expr := do
  skip
  if ← eatKind .openBracket then
    scope.enter fun level => do
      let values ← valuesBefore .closeBracket level
      closeBracket
      return .array (.list values)
  else if (← look 0 (isKind .openParen)) && (← startsQuery 1) then
    .array <$> parenthesizedQuery scope
  else fail (quoted "[" ++ " or " ++ quoted "(")

/-- An operand that starts with a keyword. -/
def keywordOperand (scope : Scope) (keyword : String) : Rule Expr := do
  if keyword == "null" then
    skip
    return .literal .null
  else if keyword == "true" || keyword == "false" then
    skip
    return .literal (.boolean (keyword == "true"))
  else if keyword == "case" then caseExpr scope
  else if keyword == "cast" then castExpr scope
  else if keyword == "array" then arrayExpr scope
  else if keyword == "exists" then
    skip
    .unary "exists" <$> parenthesizedQuery scope
  else fail "expression"

/-- An operand that starts with the token and no operator. -/
def primary (scope : Scope) (t : Token) : Rule Expr := do
  match t.kind with
  | .literal =>
    skip
    return .literal (.ofText t.text)
  | .escapedString =>
    skip
    return .ofSpecified t.text
  | .parameter =>
    skip
    return .parameter t.text
  | .openParen => parenthesized scope
  | .identifier => named scope
  | .command => keywordOperand scope t.text
  | _ => fail "expression"

/-- An operand with the operators in front of it. -/
def operand (scope : Scope) : Rule Expr := do
  match ← peek with
  | none => fail "expression"
  | some t =>
    match Power.unary? t with
    | some power =>
      skip
      .unary t.text <$> scope.here.expr power
    | none => primary scope t

/-- An expression whose operators have at least the power of the floor. -/
def expression (scope : Scope) (floor : Nat) : Rule Expr := do
  let first ← operand scope
  let suffixes ← many (suffix scope floor)
  return suffixes.foldl Suffix.apply first

end SqlQuery.Grammar
