import SqlQuery.Proofs.Ending.Expression
import SqlQuery.Proofs.Slice.Text

/-!
What the scan takes signs and stars for, and the grammar. A scan knows only the token before a sign, and
where an expression ends, this is a token after which signs and stars are operators.
-/

namespace SqlQuery

/-- What begins a signed number or stands for all columns, where it is no operator. -/
def guessedChars : List Char := ['+', '-', '*']

namespace Lexeme

variable {c : Char} {cs : List Char} {piece : Piece}

theorem Name.longerKeyword?_complete {phrase keyword : String} {taken left : List Char}
    (h : longerKeyword? phrase cs = some (keyword, taken, left)) :
    Keyword.isComplete keyword = true := by
  fun_induction longerKeyword? phrase cs generalizing keyword taken left with
  | case1 => cases h
  | case2 =>
    rename_i deeper ih
    cases h
    exact ih deeper
  | case3 =>
    cases h
    assumption
  | case4 => cases h
  | case5 => cases h

theorem Name.readWord_known (cs : List Char) :
    Token.KnownCommand ⟨(readWord cs).kind, (readWord cs).text⟩ := by
  unfold readWord
  dsimp only
  split
  case h_1 found => exact fun _ => longerKeyword?_complete found
  case h_2 =>
    split
    · exact fun _ => ‹_›
    · rintro ⟨⟩

theorem Name.readQuoted_known {opening close : Char} (h : readQuoted opening close cs = .ok piece) :
    Token.KnownCommand ⟨piece.kind, piece.text⟩ := by
  unfold readQuoted at h
  split at h <;> cases h
  rintro ⟨⟩

theorem Name.read?_known {wildcard bracket : Bool}
    (h : read? wildcard bracket cs = some (.ok piece)) : Token.KnownCommand ⟨piece.kind, piece.text⟩ := by
  unfold read? at h
  split at h
  · cases h
  split at h
  · cases h
    rintro ⟨⟩
  split at h
  · exact readQuoted_known (Option.some.inj h)
  split at h
  · exact readQuoted_known (Option.some.inj h)
  split at h <;> cases h
  exact readWord_known _

/-- No literal begins with one of these characters where an operand is over. -/
theorem Literal.read?_guessed (mem : c ∈ guessedChars) : read? false (c :: cs) = none := by
  simp only [guessedChars, List.mem_cons, List.not_mem_nil, or_false] at mem
  rcases mem with rfl | rfl | rfl <;>
    simp [read?, specifier?, specifiers, Text.lowerChars, startsNumber]

theorem Name.read?_guessed (mem : c ∈ guessedChars) (bracket : Bool) :
    read? false bracket (c :: cs) = none := by
  simp only [guessedChars, List.mem_cons, List.not_mem_nil, or_false] at mem
  rcases mem with rfl | rfl | rfl <;> rfl

theorem Name.readParameter?_guessed (mem : c ∈ guessedChars) (ordinal : Nat) :
    readParameter? ordinal (c :: cs) = none := by
  simp only [guessedChars, List.mem_cons, List.not_mem_nil, or_false] at mem
  rcases mem with rfl | rfl | rfl <;> rfl

theorem Symbol.read_guessed (mem : c ∈ guessedChars) (h : read c cs = .ok piece) :
    piece.kind = .operator := by
  have plain : punctuation? c = none := by
    simp only [guessedChars, List.mem_cons, List.not_mem_nil, or_false] at mem
    rcases mem with rfl | rfl | rfl <;> rfl
  unfold read at h
  rw [plain] at h
  dsimp only at h
  repeat' split at h
  all_goals cases h <;> rfl

end Lexeme

namespace Piece

variable {previous : Option Token} {ordinal : Nat} {c : Char} {cs : List Char} {piece : Piece}

/-- Only words are read as keywords. -/
theorem read_known (h : Piece.read previous ordinal c cs = .ok piece) :
    Token.KnownCommand ⟨piece.kind, piece.text⟩ := by
  rcases read_cases h with literal | ⟨_, found | ⟨_, name | ⟨_, symbol⟩⟩⟩
  · rcases Lexeme.Literal.read?_kind literal with kind | kind <;> simp [Token.KnownCommand, kind]
  · simp [Token.KnownCommand, (Lexeme.Name.readParameter?_eq found).1]
  · exact Lexeme.Name.read?_known name
  · intro command
    exact absurd (by simp [show piece.kind = .command from command]) (Lexeme.Symbol.read_kind symbol)

/-- After an operand a sign or a star is an operator. -/
theorem read_guessed {t : Token} (closed : t.closes = true) (mem : c ∈ guessedChars)
    (h : Piece.read (some t) ordinal c cs = .ok piece) : piece.kind = .operator := by
  simp only [Token.closes, Bool.and_eq_true, Bool.not_eq_true'] at closed
  unfold Piece.read at h
  simp only [Option.all_some, closed, Lexeme.Literal.read?_guessed mem,
    Lexeme.Name.readParameter?_guessed mem, Lexeme.Name.read?_guessed mem] at h
  exact Lexeme.Symbol.read_guessed mem h

end Piece

open Lexeme (tokens)

/-- After the lexeme in front of the place no operand is expected and no star stands for all columns, and
a lexeme that begins there with a sign or a star is an operator. -/
structure OperandOver (text : String) (lexemes : List Lexeme) (j : Nat) : Prop where
  closed : ∃ last, lexemes[j - 1]? = some last ∧ last.expectsOperand = false ∧
    last.precedesWildcard = false
  operator : ∀ next ∈ lexemes[j]?, ∀ c ∈ (next.slice text).toList.head?, c ∈ guessedChars →
    next.kind = .operator

theorem scan_known {text : String} {lexemes : List Lexeme} (h : (scan text).2 = .ok lexemes) :
    ∀ t ∈ tokens lexemes, t.KnownCommand := by
  intro t mem
  obtain ⟨l, among, rfl⟩ := List.mem_map.1 mem
  obtain ⟨_, _, _, _, _, piece, read, rfl⟩ := Scan.read_of_mem (Scan.run_of_scan h) among
  exact Piece.read_known read

/--
An expression that is read from any lexeme of a text on ends where an operand is over: the lexeme in front
of that place expects no operand and precedes no wildcard, and so a sign or a star that comes next was
not taken for the sign of a number or for all columns.
-/
theorem exprAt_ends {text : String} {lexemes : List Lexeme} (h : (scan text).2 = .ok lexemes)
    {n floor i : Nat} {e : Expr} {rest : List Token}
    (run : Grammar.exprAt n floor (tokens (lexemes.drop i)) = .ok (e, rest)) :
    ∃ j, i < j ∧ j ≤ lexemes.length ∧ rest = tokens (lexemes.drop j) ∧
      OperandOver text lexemes j := by
  have known : ∀ t ∈ tokens (lexemes.drop i), t.KnownCommand := fun t mem =>
    scan_known h t (List.map_subset _ (List.drop_subset i lexemes) mem)
  obtain ⟨before, t, taken, closed⟩ :=
    (Grammar.levelAt_ends n).1.finishes floor _ e rest known run
  obtain ⟨passed, left, split, rfl, ends⟩ := List.map_eq_append_iff.1 taken
  obtain ⟨last, after, rfl, rfl, rfl⟩ := List.map_eq_cons_iff.1 ends
  -- The tokens before the expression are those before its start and what it takes but for its last.
  obtain ⟨front, long, whole⟩ : ∃ front, i ≤ front.length ∧ lexemes = front ++ last :: after := by
    refine ⟨lexemes.take i ++ passed, ?_, by rw [List.append_assoc, ← split, List.take_append_drop]⟩
    have some := congrArg List.length split
    simp only [List.length_drop, List.length_append, List.length_cons, List.length_take] at some ⊢
    omega
  have upTo : lexemes.take (front.length + 1) = front ++ [last] := by
    rw [whole, List.take_length_add_append]
    rfl
  have behind : lexemes.drop (front.length + 1) = after := by simp [whole]
  have ended := closed
  simp only [Token.closes, Bool.and_eq_true, Bool.not_eq_true'] at ended
  refine ⟨front.length + 1, by omega, by simp [whole], behind ▸ rfl, ⟨last, by simp [whole], ended⟩,
    fun next found c head mem => ?_⟩
  obtain ⟨d, more, piece, read, token, slice⟩ :=
    Scan.run_read (List.nil_append _).symm rfl (Scan.run_of_scan h) found
  have splits := Piece.read_splits read
  rw [upTo, List.getLast?_append, List.getLast?_singleton] at read
  have first : piece.source.head? = some c := by rwa [slice, String.toList_ofList] at head
  obtain ⟨source, same⟩ := List.head?_eq_some_iff.1 first
  obtain rfl : c = d := by
    have front := splits.1
    rw [same] at front
    exact (List.cons.inj front).1
  exact (congrArg Token.kind token).trans (Piece.read_guessed closed mem read)

/-- A type of two words with a signed number, as it seems, behind it. -/
theorem exprAt_ends_typed :
    let text := "select x::double precision -1"
    ∃ lexemes, (scan text).2 = .ok lexemes ∧ ∃ e rest,
      Grammar.exprAt 2 14 (tokens (lexemes.drop 1)) = .ok (e, rest) ∧ rest.length = 2 ∧
        ∃ j, 1 < j ∧ j ≤ lexemes.length ∧ rest = tokens (lexemes.drop j) ∧
          OperandOver text lexemes j := by
  intro text
  have of_run {lexemes : List Lexeme} (scanned : (scan text).2 = .ok lexemes)
      (h : ∃ e rest, Grammar.exprAt 2 14 (tokens (lexemes.drop 1)) = .ok (e, rest) ∧
        rest.length = 2) :
      ∃ e rest, Grammar.exprAt 2 14 (tokens (lexemes.drop 1)) = .ok (e, rest) ∧ rest.length = 2 ∧
        ∃ j, 1 < j ∧ j ≤ lexemes.length ∧ rest = tokens (lexemes.drop j) ∧
          OperandOver text lexemes j := by
    obtain ⟨e, rest, run, two⟩ := h
    exact ⟨e, rest, run, two, exprAt_ends scanned run⟩
  have scanned : (scan text).2 = .ok [⟨⟨.command, "select"⟩, 0, 6⟩, ⟨⟨.identifier, "x"⟩, 7, 8⟩,
      ⟨⟨.operator, "::"⟩, 8, 10⟩, ⟨⟨.identifier, "double"⟩, 10, 16⟩,
      ⟨⟨.identifier, "precision"⟩, 17, 26⟩, ⟨⟨.operator, "-"⟩, 27, 28⟩,
      ⟨⟨.literal, "1"⟩, 28, 29⟩] := by decide +kernel
  exact ⟨_, scanned, of_run scanned ⟨_, _, rfl, rfl⟩⟩

end SqlQuery
