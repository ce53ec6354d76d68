import SqlQuery.Proofs.Parameter.Order

/-!
A statement holds the parameters and the values of literals that its lexemes hold, each as often as it
is written.
-/

namespace SqlQuery

def Atom.literal? : Atom → Option Literal
  | parameter _ => none
  | literal value => some value

/-- The name of a parameter. -/
def Token.parameterName? (t : Token) : Option String :=
  if t.kind == .parameter then some t.text else none

/-- The value that a literal stands for, or the string of one with a specifier. -/
def Token.literalValue? (t : Token) : Option Literal :=
  match t.kind with
  | .literal => some (.ofText t.text)
  | .escapedString => some (.string (unquote (t.text.toList.dropWhile (· != '\x27'))))
  | _ => none

/-- A number or a string. The keywords `null`, `true` and `false` have no literal of their own. -/
def Node.literalValue? : Node → Option Literal
  | .expr (.literal (.number text)) => some (.number text)
  | .expr (.literal (.string value)) => some (.string value)
  | _ => none

namespace Token

theorem atoms_parameter (t : Token) :
    t.atoms.filterMap Atom.parameter? = t.parameterName?.toList := by
  unfold atoms parameterName?
  split <;> simp_all [Atom.parameter?]

theorem atoms_literal (t : Token) : t.atoms.filterMap Atom.literal? = t.literalValue?.toList := by
  unfold atoms literalValue?
  cases t.kind <;> rfl

end Token

theorem Node.ownAtoms_literal (n : Node) :
    n.ownAtoms.filterMap Atom.literal? = n.literalValue?.toList := by
  unfold Node.ownAtoms Node.literalValue?
  split <;> simp_all [Atom.literal?]

namespace Session

theorem statement_atoms {L : List Lexeme} {limit : Nat} {query : Query}
    (read : (start L limit).statement.1 = .ok query) :
    ((Lexeme.tokens L).flatMap Token.atoms).Perm ((Node.query query).walk.flatMap Node.ownAtoms) := by
  obtain ⟨rest, ran⟩ := statement_eq_ok.1 read
  have yields := Grammar.statementAt_reads _ (Lexeme.tokens L) query rest rfl ran
  simpa [Node.atoms] using yields.same

/-- No parameter and no literal is lost, repeated or changed: those of the tree are those of the
lexemes. -/
theorem statement_keeps {L : List Lexeme} {limit : Nat} {query : Query}
    (read : (start L limit).statement.1 = .ok query) :
    ((Lexeme.tokens L).filterMap Token.parameterName?).Perm
        ((Node.query query).walk.filterMap Node.parameterName?) ∧
      ((Lexeme.tokens L).filterMap Token.literalValue?).Perm
        ((Node.query query).walk.filterMap Node.literalValue?) := by
  have same := statement_atoms read
  constructor
  · have names := same.filterMap Atom.parameter?
    rwa [filterMap_flatMap_of Token.atoms_parameter, filterMap_flatMap_of Node.ownAtoms_parameter]
      at names
  · have values := same.filterMap Atom.literal?
    rwa [filterMap_flatMap_of Token.atoms_literal, filterMap_flatMap_of Node.ownAtoms_literal]
      at values

/-- In `select e'a''b', date '1' offset 2 limit :x` the limit is walked before the offset. -/
theorem statement_keeps_offset_first :
    let L : List Lexeme := [.ofText .command "select" 0, .ofText .escapedString "e'a''b'" 7,
      .ofText .comma "," 14, .ofText .identifier "date" 16, .ofText .literal "'1'" 21,
      .ofText .command "offset" 25, .ofText .literal "2" 32, .ofText .command "limit" 34,
      .ofText .parameter "x" 40]
    ∃ query, (start L 3).statement.1 = .ok query ∧
      ["x"].Perm ((Node.query query).walk.filterMap Node.parameterName?) ∧
      [Literal.string "a'b", .string "1", .number "2"].Perm
        ((Node.query query).walk.filterMap Node.literalValue?) := by
  intro L
  obtain ⟨query, read⟩ : ∃ query, (start L 3).statement.1 = .ok query :=
    ⟨_, statement_eq_ok.2 ⟨_, rfl⟩⟩
  obtain ⟨names, values⟩ := statement_keeps read
  have ownNames : (Lexeme.tokens L).filterMap Token.parameterName? = ["x"] := by decide +kernel
  have ownValues : (Lexeme.tokens L).filterMap Token.literalValue? =
      [.string "a'b", .string "1", .number "2"] := by decide +kernel
  rw [ownNames] at names
  rw [ownValues] at values
  exact ⟨query, read, names, values⟩

end Session

end SqlQuery
