import SqlQuery.Lexeme
import SqlQuery.Tree

/-!
Grammar rules: readers of tokens. A rule that cannot go on says what it expected, where it stood
and how many nesting levels it left open.
-/

namespace SqlQuery

inductive Cause where
  | expected (what : String)
  | trailing
  | tooDeep
  deriving DecidableEq, Repr

/-- Where a rule gave up: `rest` is what it had not read, `raised` the levels it left open. -/
structure Stop where
  cause : Cause
  rest : List Token
  raised : Nat
  deriving DecidableEq, Repr

abbrev Rule := StateT (List Token) (Except Stop)

namespace Rule

variable {α β : Type}

def stop (cause : Cause) : Rule α := fun ts => .error ⟨cause, ts, 0⟩

def fail (what : String) : Rule α := stop (.expected what)

/-- The next token, left where it is. -/
def peek : Rule (Option Token) := fun ts => .ok (ts.head?, ts)

/-- Tests the token that stands `n` places ahead. -/
def look (n : Nat) (p : Token → Bool) : Rule Bool := fun ts => .ok (ts[n]?.any p, ts)

/-- Passes over the next token, if there is one. -/
def skip : Rule Unit := fun ts => .ok ((), ts.tail)

/-- Reads the next token if `f` accepts it. -/
def accept (f : Token → Option α) : Rule (Option α) := fun ts =>
  match ts.head?.bind f with
  | none => .ok (none, ts)
  | some a => .ok (some a, ts.tail)

def eat (p : Token → Bool) : Rule Bool :=
  Option.isSome <$> accept fun t => if p t then some () else none

def expect (f : Token → Option α) (what : String) : Rule α := do
  match ← accept f with
  | some a => return a
  | none => fail what

def require (p : Token → Bool) (what : String) : Rule Unit :=
  expect (fun t => if p t then some () else none) what

/-- Reads items until `item` finds none, one for each token of the bound at most. -/
def upTo (item : Rule (Option α)) : List Token → Rule (List α)
  | [] => return []
  | _ :: bound => do
    match ← item with
    | none => return []
    | some a => return a :: (← upTo item bound)

/-- Reads items until there are no more. Each takes a token, so the tokens bound their number. -/
def many (item : Rule (Option α)) : Rule (List α) := fun ts => upTo item ts ts

/-- Reads what follows a mark, if the mark comes next. -/
def after (mark : Rule Bool) (item : Rule α) : Rule (Option α) := do
  if ← mark then some <$> item else return none

end Rule

def isKind (kind : Kind) (t : Token) : Bool := t.kind == kind

/-- A name that may name a thing of its own, which the wildcard may not. -/
def isName (t : Token) : Bool := t.kind == .identifier && t.text != "*"

def quoted (word : String) : String := "`" ++ word ++ "`"

namespace Rule

def eatKeyword (keyword : String) : Rule Bool := eat fun t => t.isCommand keyword

def eatWord (word : String) : Rule Bool := eat fun t => t.isWord word

def eatKind (kind : Kind) : Rule Bool := eat (isKind kind)

def keyword (keyword : String) : Rule Unit :=
  require (fun t => t.isCommand keyword) (quoted keyword)

def word (word : String) : Rule Unit := require (fun t => t.isWord word) (quoted word)

def openParen : Rule Unit := require (isKind .openParen) (quoted "(")

def closeParen : Rule Unit := require (isKind .closeParen) (quoted ")")

def closeBracket : Rule Unit := require (isKind .closeBracket) (quoted "]")

def name : Rule String := expect (fun t => if isName t then some t.text else none) "identifier"

def commaList {α : Type} (item : Rule α) : Rule (List α) :=
  return (← item) :: (← many (after (eatKind .comma) item))

/-- Names between parentheses. -/
def nameList : Rule (List String) := do
  openParen
  let names ← commaList name
  closeParen
  return names

/-- The names of a column list, if one comes next. -/
def columnNames : Rule (List String) := do
  if ← look 0 (isKind .openParen) then nameList else return []

end Rule

/-- The rules for what is nested: expressions from a power of operators up, and queries. -/
structure Level where
  expr : Nat → Rule Expr
  query : Rule Query

/-- What a rule may call: the level it runs at, and the next one unless the limit is reached. -/
structure Scope where
  here : Level
  inside : Option Level

namespace Scope

/-- Runs a rule one level deeper. The level stays open if the rule fails. -/
def enter {α : Type} (scope : Scope) (rule : Level → Rule α) : Rule α := fun ts =>
  match scope.inside with
  | none => .error ⟨.tooDeep, ts, 1⟩
  | some level => (rule level ts).mapError fun stop => { stop with raised := stop.raised + 1 }

end Scope

end SqlQuery
