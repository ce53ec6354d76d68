import SqlQuery.Lexeme

/-!
Binding powers of operators: the tighter an operator binds, the higher its power. An operand takes
in operators of its own power or more.
-/

namespace SqlQuery.Power

def keywords : List (String × Nat) :=
  [("or", 1), ("and", 3), ("is", 7), ("is not", 7), ("like", 7), ("not like", 7), ("ilike", 7),
   ("not ilike", 7), ("in", 7), ("not in", 7), ("between", 9), ("not between", 9)]

def symbols : List (String × Nat) :=
  [("=", 7), ("<>", 7), ("!=", 7), ("<", 7), ("<=", 7), (">", 7), (">=", 7),
   ("||", 11), ("&", 11), ("|", 11), ("^", 11), ("#", 11), ("<<", 11), (">>", 11), ("->", 11),
   ("->>", 11), ("#>", 11), ("#>>", 11), ("@>", 11), ("<@", 11), ("~", 11), ("~*", 11), ("!~", 11),
   ("!~*", 11), ("+", 13), ("-", 13), ("*", 15), ("/", 15), ("%", 15), ("::", 19)]

/-- The power of an operator between or after operands, for its left operand. -/
def binary? (t : Token) : Option Nat :=
  match t.kind with
  | .command => keywords.lookup t.text
  | .operator => symbols.lookup t.text
  | _ => none

/-- The power for the right operand. Equal operators group to the left. -/
def right (left : Nat) : Nat := left + 1

def signs : List String := ["-", "+", "~"]

/-- The power of an operator in front of its operand. -/
def unary? (t : Token) : Option Nat :=
  if t.kind == .operator && signs.contains t.text then some 17
  else if t.isCommand "not" then some 5
  else none

end SqlQuery.Power
