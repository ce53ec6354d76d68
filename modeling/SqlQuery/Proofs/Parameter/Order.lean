import SqlQuery.Proofs.Parser.Query
import SqlQuery.Proofs.Atom.Query
import SqlQuery.Proofs.Lexeme.Inversion

/-!
Anonymous parameters are numbered in the order in which they are written. A query that is read holds
each of them once, and in that order unless a limit clause was written with its offset first.
-/

namespace SqlQuery

def Lexeme.isParameter (l : Lexeme) : Bool := l.kind == .parameter

/-- Takes a single byte, so that a mark without a name has been read. -/
def Lexeme.isAnonymous (l : Lexeme) : Bool := l.stop == l.position + 1

/-- The names of so many anonymous parameters after the first ones. -/
def ordinalsAfter (ordinal count : Nat) : List String :=
  (List.range' (ordinal + 1) count).map toString

/-- The names of the first anonymous parameters. -/
def ordinals (count : Nat) : List String := ordinalsAfter 0 count

theorem ordinalOf_toString (n : Nat) : ordinalOf (toString n) = n := by
  simp [ordinalOf]

theorem increasing_ordinals (ordinal count : Nat) : Increasing (ordinalsAfter ordinal count) := by
  unfold Increasing ordinalsAfter
  rw [List.pairwise_map]
  refine List.Pairwise.imp ?_ (List.pairwise_lt_range' 1)
  intro i j before
  rwa [ordinalOf_toString, ordinalOf_toString]

def Lexeme.parameters (ls : List Lexeme) : List String := Token.parameters (tokens ls)

theorem Lexeme.parameters_cons (l : Lexeme) (ls : List Lexeme) :
    Lexeme.parameters (l :: ls) =
      if l.isParameter then l.text :: Lexeme.parameters ls else Lexeme.parameters ls := by
  unfold Lexeme.parameters Lexeme.tokens Token.parameters Lexeme.isParameter
  rw [List.map_cons, List.flatMap_cons, List.filterMap_append]
  cases kind : l.kind <;> simp [Token.atoms, kind, Atom.parameter?]

theorem countP_cons (l : Lexeme) (ls : List Lexeme) : (l :: ls).countP Lexeme.isParameter =
    if l.isParameter then ls.countP Lexeme.isParameter + 1 else ls.countP Lexeme.isParameter := by
  rw [List.countP_cons]
  split <;> rfl

/-- Anonymous parameters have the names that come next, in the order of the text. -/
theorem Scan.run_numbers {previous : Option Token} {ordinal position : Nat} {cs : List Char}
    {lexemes : List Lexeme} (scanned : (Scan.run previous ordinal position cs).outcome = .ok lexemes)
    (anonymous : ∀ l ∈ lexemes, l.isParameter → l.isAnonymous) :
    Lexeme.parameters lexemes = ordinalsAfter ordinal (lexemes.countP Lexeme.isParameter) := by
  induction lexemes generalizing previous ordinal position cs with
  | nil => rfl
  | cons l later ih =>
    rcases Scan.run_ok scanned with ⟨_, none⟩ | ⟨c, rest, piece, _, _, read, same, ran⟩
    · cases none
    obtain ⟨rfl, rfl⟩ := List.cons.inj same
    have tail := ih ran fun l mem => anonymous l (List.mem_cons_of_mem _ mem)
    rw [Lexeme.parameters_cons, countP_cons, tail]
    by_cases parameter : piece.kind = .parameter
    · have isParameter : (piece.lexemeAt (Gap.skip position cs).position).isParameter := by
        simp [Lexeme.isParameter, Piece.lexemeAt, parameter]
      have single := anonymous _ List.mem_cons_self isParameter
      have byte : Text.size piece.source = 1 := by
        simp only [Lexeme.isAnonymous, Piece.lexemeAt, beq_iff_eq] at single
        omega
      rcases Piece.read_parameter read parameter with ⟨mark, text⟩ | wide
      · rw [if_pos isParameter, if_pos isParameter]
        simp [ordinalAfter, mark, ordinalsAfter, List.range'_succ, Piece.lexemeAt, text]
      · omega
    · have other : piece.source ≠ ['?'] := fun mark => parameter (Piece.read_source_mark read mark)
      simp [Lexeme.isParameter, Piece.lexemeAt, parameter, ordinalAfter, other]

theorem numbered_of_scan {text : String} {lexemes : List Lexeme}
    (scanned : (scan text).2 = .ok lexemes)
    (anonymous : ∀ l ∈ lexemes, l.isParameter → l.isAnonymous) :
    Lexeme.parameters lexemes = ordinals (lexemes.countP Lexeme.isParameter) := by
  exact Scan.run_numbers (Scan.run_of_scan scanned) anonymous

theorem Node.parameters_limit (l : Limit) :
    (Node.limit l).parameters = parametersOf l.limit ++ parametersOf l.offset := by
  obtain ⟨limit, offset⟩ := l
  rw [Node.parameters, Node.atoms_eq]
  cases limit <;> cases offset <;>
    simp [Node.ownAtoms, Node.children, Child.maybe, Child.each, parametersOf, Node.parameters]

/-- Where the parameters of a node are in the order of their numbers, its limit clauses are too. -/
theorem Node.inOrder_of_increasing {n : Node} (h : Increasing n.parameters) : n.InOrder := by
  intro l mem
  obtain ⟨before, after, split⟩ := n.walk_infix _ mem
  have inside : Increasing (Node.limit l).parameters := by
    have parameters : n.parameters = (before.flatMap Node.ownAtoms).filterMap Atom.parameter? ++
        (Node.limit l).parameters ++ (after.flatMap Node.ownAtoms).filterMap Atom.parameter? := by
      simp [Node.parameters, Node.atoms, ← split]
    rw [parameters] at h
    exact (List.pairwise_append.1 (List.pairwise_append.1 h).1).2.1
  rw [Node.parameters_limit] at inside
  exact (List.pairwise_append.1 inside).2.2

/-- The name of a parameter. -/
def Node.parameterName? : Node → Option String
  | .expr (.parameter name) => some name
  | _ => none

theorem Node.ownAtoms_parameter (n : Node) :
    n.ownAtoms.filterMap Atom.parameter? = n.parameterName?.toList := by
  unfold ownAtoms parameterName?
  split <;> simp_all [Atom.parameter?]

theorem Node.parameters_eq_walk (n : Node) : n.parameters = n.walk.filterMap Node.parameterName? :=
  filterMap_flatMap_of ownAtoms_parameter n.walk

theorem yields_of_parse {text : String} {limit : Nat} {lexemes : List Lexeme} {query : Query}
    (scanned : (scan text).2 = .ok lexemes) (parsed : Query.parse text limit = .ok query) :
    Yields (Lexeme.tokens lexemes) [.query query] [] := by
  rw [Query.parse, scanned] at parsed
  obtain ⟨rest, read⟩ := Session.statement_eq_ok.1 parsed
  exact Grammar.statementAt_reads _ (Lexeme.tokens lexemes) query rest rfl read

end SqlQuery
