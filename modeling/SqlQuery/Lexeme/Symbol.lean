import SqlQuery.Lexeme.Piece

/-!
Punctuation and symbolic operators.
-/

namespace SqlQuery.Lexeme.Symbol

def punctuation? (c : Char) : Option Kind :=
  if c == '(' then some .openParen
  else if c == ')' then some .closeParen
  else if c == '[' then some .openBracket
  else if c == ']' then some .closeBracket
  else if c == ',' then some .comma
  else if c == '.' then some .dot
  else if c == ';' then some .operator
  else none

/-- Operators of several characters, the longer ones first. -/
def compounds : List String :=
  ["->>", "#>>", "!~*", "::", "||", "<=", ">=", "<>", "!=", "->", "#>", "@>", "<@", "<<", ">>",
   "!~", "~*"]

def compound? (cs : List Char) : Option (List Char) :=
  (compounds.map String.toList).find? fun operator => operator.isPrefixOf cs

/-- Reads the symbol at the front; a character of no class is a fault. -/
def read (c : Char) (cs : List Char) : Except Fault Piece :=
  match punctuation? c with
  | some kind => .ok (.verbatim kind [c] cs)
  | none =>
    match compound? (c :: cs) with
    | some operator => .ok (.verbatim .operator operator ((c :: cs).drop operator.length))
    | none =>
      if Text.isOperatorChar c || c == ':' then .ok (.verbatim .operator [c] cs)
      else .error (.unexpectedCharacter c)

theorem compounds_ne_nil : ∀ operator ∈ compounds.map String.toList, operator ≠ [] := by
  decide

theorem compound?_eq {cs operator : List Char} (h : compound? cs = some operator) :
    operator ++ cs.drop operator.length = cs ∧ operator ≠ [] := by
  have starts := List.find?_some h
  obtain ⟨rest, rfl⟩ := List.isPrefixOf_iff_prefix.1 starts
  exact ⟨by simp, compounds_ne_nil _ (List.mem_of_find?_eq_some h)⟩

/-- A symbol takes some of the text and loses none. -/
theorem read_splits {c : Char} {cs : List Char} {piece : Piece} (h : read c cs = .ok piece) :
    piece.Splits (c :: cs) := by
  unfold read at h
  split at h
  · cases h
    simp [Piece.Splits, Piece.verbatim]
  · split at h
    case h_1 found =>
      cases h
      exact compound?_eq found
    case h_2 =>
      split at h
      · cases h
        simp [Piece.Splits, Piece.verbatim]
      · simp at h

end SqlQuery.Lexeme.Symbol
