import SqlQuery.Grammar.Query
import SqlQuery.Parser.Query

/-!
What a rule of the grammar comes to in a session, told from the tokens that are left.
-/

namespace SqlQuery.Session

/-- The tokens not read yet. -/
def rest (s : Session) : List Token := Lexeme.tokens (s.lexemes.drop s.index)

/-- How many lexemes come before these last tokens. -/
def indexOf (s : Session) (rest : List Token) : Nat := s.lexemes.length - rest.length

/-- Where the first of these last tokens stands. -/
def positionOf (s : Session) (rest : List Token) : Nat :=
  (s.lexemes[s.indexOf rest]?.map Lexeme.position).getD s.endPosition

def found (rest : List Token) : Option String := rest.head?.map Token.text

def errorOf (s : Session) (stop : Stop) : ParseError :=
  let index := s.indexOf stop.rest
  let position := s.positionOf stop.rest
  match stop.cause with
  | .expected what => .unexpected index position what (found stop.rest)
  | .trailing => .trailing index position ((found stop.rest).getD "")
  | .tooDeep => .tooDeep s.limit position

/-- Runs a rule on the tokens that are left. -/
def run {α : Type} (s : Session) (rule : Rule α) : Except ParseError α × Session :=
  match rule s.rest with
  | .ok (a, rest) => (.ok a, { s with index := s.indexOf rest })
  | .error stop =>
    (.error (s.errorOf stop),
      { s with index := s.indexOf stop.rest, depth := s.depth + stop.raised })

theorem run_eq_ok {α : Type} {s : Session} {rule : Rule α} {a : α} (read : (s.run rule).1 = .ok a) :
    ∃ rest, rule s.rest = .ok (a, rest) := by
  unfold run at read
  split at read
  case h_1 rest ran =>
    cases read
    exact ⟨rest, ran⟩
  case h_2 => cases read

end SqlQuery.Session
