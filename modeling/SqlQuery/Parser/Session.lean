import SqlQuery.Lexeme.Scan

/-!
The state of a parser and how it moves. A session stands at one of its lexemes and counts the nesting
levels that are open. It keeps its state when something fails, and with it the levels that a failure
leaves open.
-/

namespace SqlQuery

inductive ParseError where
  | scan (error : ScanError)
  | unexpected (index position : Nat) (expected : String) (found : Option String)
  | trailing (index position : Nat) (found : String)
  | tooDeep (limit position : Nat)
  deriving DecidableEq, Repr

namespace ParseError

def position : ParseError → Nat
  | .scan error => error.position
  | .unexpected _ position _ _ => position
  | .trailing _ position _ => position
  | .tooDeep _ position => position

def message : ParseError → String
  | .scan error => error.message
  | .unexpected _ position expected found =>
    "Unexpected token at position " ++ toString position ++ ": expected " ++ expected ++
      ", found " ++ found.getD "end of input"
  | .trailing _ position found =>
    "Unexpected trailing input at position " ++ toString position ++ ": `" ++ found ++ "`"
  | .tooDeep limit position =>
    "Nesting deeper than " ++ toString limit ++ " levels at position " ++ toString position

end ParseError

structure Session where
  lexemes : List Lexeme
  index : Nat
  depth : Nat
  limit : Nat
  deriving DecidableEq, Repr

namespace Session

def defaultLimit : Nat := 128

def start (lexemes : List Lexeme) (limit : Nat) : Session := ⟨lexemes, 0, 0, limit⟩

def withLimit (s : Session) (limit : Nat) : Session := { s with limit := limit }

/-- The levels that may still be opened. -/
def allowance (s : Session) : Nat := s.limit - s.depth

/-- How many lexemes are left. -/
def remaining (s : Session) : Nat := s.lexemes.length - s.index

/-- The lexeme that is read next. -/
def next? (s : Session) : Option Lexeme := s.lexemes[s.index]?

/-- Where the text ends. -/
def endPosition (s : Session) : Nat := (s.lexemes.getLast?.map Lexeme.stop).getD 0

/-- Where the next lexeme stands, or else where the text ends. -/
def place (s : Session) : Nat := (s.next?.map Lexeme.position).getD s.endPosition

end Session

/-- What a parser does with a session. -/
abbrev Parser := ExceptT ParseError (StateM Session)

namespace Parser

variable {α β : Type}

/-- The next lexeme, left where it is. -/
def current : Parser (Option Lexeme) := fun s => (.ok s.next?, s)

/-- The lexeme that stands `n` places after the next one. -/
def peekNth (n : Nat) : Parser (Option Lexeme) := fun s => (.ok s.lexemes[s.index + n]?, s)

/-- Moves past the next lexeme, if there is one. -/
def advance : Parser Unit := fun s =>
  (.ok (), if s.index < s.lexemes.length then { s with index := s.index + 1 } else s)

/-- Fails with what the session says of the place it is at. -/
def failWith (error : Session → ParseError) : Parser α := fun s => (.error (error s), s)

def unexpected (what : String) : Parser α :=
  failWith fun s => .unexpected s.index s.place what (s.next?.map (·.text))

/-- Opens a level, which is counted also if there are too many of them then. -/
def enter : Parser Unit := fun s =>
  let s := { s with depth := s.depth + 1 }
  (if s.limit < s.depth then .error (.tooDeep s.limit s.place) else .ok (), s)

/-- Closes a level. -/
def leave : Parser Unit := fun s => (.ok (), { s with depth := s.depth - 1 })

/-- Tells whether the parser fails, and goes on where it has come to. -/
def attempt (p : Parser α) : Parser (Except ParseError α) := fun s =>
  let (result, s) := p s
  (.ok result, s)

def ofResult (result : Except ParseError α) : Parser α := fun s => (result, s)

def look (n : Nat) (p : Token → Bool) : Parser Bool :=
  return (← peekNth n).any fun l : Lexeme => p l.toToken

def check (p : Token → Bool) : Parser Bool :=
  return (← current).any fun l : Lexeme => p l.toToken

/-- Moves past the next lexeme if `f` accepts it. -/
def accept (f : Token → Option α) : Parser (Option α) := do
  match (← current).bind fun l => f l.toToken with
  | none => return none
  | some a =>
    advance
    return some a

def eat (p : Token → Bool) : Parser Bool := do
  let found ← check p
  if found then advance
  return found

def expect (f : Token → Option α) (what : String) : Parser α := do
  match ← accept f with
  | some a => return a
  | none => unexpected what

def require (p : Token → Bool) (what : String) : Parser Unit := do
  if ← eat p then return () else unexpected what

/-- What is read after a mark, if the mark comes next. -/
def after (mark : Parser Bool) (item : Parser α) : Parser (Option α) := do
  if ← mark then some <$> item else return none

/-- Adds what `item` reads to the start value until it finds nothing more, so many times at most. -/
def gatherUpTo (item : Parser (Option α)) (add : β → α → β) : Nat → β → Parser β
  | 0, b => return b
  | n + 1, b => do
    match ← item with
    | none => return b
    | some a => gatherUpTo item add n (add b a)

/-- Adds what `item` reads until it finds nothing more. Each item takes a lexeme at least, so that
those that are left are bound enough. -/
def gather (item : Parser (Option α)) (add : β → α → β) (b : β) : Parser β := fun s =>
  gatherUpTo item add s.remaining b s

end Parser

end SqlQuery
