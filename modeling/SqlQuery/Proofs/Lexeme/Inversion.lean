import SqlQuery.Lexeme.Scan

/-!
What a scan that succeeds has read: the kinds of lexeme that each reader gives, what stands where a
parameter is read, and one step of the scan.
-/

namespace SqlQuery

theorem Except.map_eq_ok {ε α β : Type} {f : α → β} {r : Except ε α} {b : β} :
    r.map f = .ok b ↔ ∃ a, r = .ok a ∧ f a = b := by
  cases r <;> simp [Except.map]

theorem Except.map_eq_error {ε α β : Type} {f : α → β} {r : Except ε α} {e : ε} :
    r.map f = .error e ↔ r = .error e := by
  cases r <;> simp [Except.map]

theorem Except.toOption_map_eq_some {ε α β : Type} {r : Except ε α} {f : α → β} {b : β}
    (h : r.toOption.map f = some b) : ∃ a, r = .ok a ∧ f a = b := by
  cases r with
  | error e => cases h
  | ok a => exact ⟨a, rfl, Option.some.inj h⟩

namespace Lexeme

theorem Literal.readString_kind {cs : List Char} {piece : Piece}
    (h : Literal.readString cs = .ok piece) : piece.kind = .literal := by
  unfold Literal.readString at h
  split at h <;> cases h
  rfl

theorem Literal.readSpecified_kind {word cs : List Char} {piece : Piece}
    (h : Literal.readSpecified word cs = .ok piece) : piece.kind = .escapedString := by
  obtain ⟨body, _, rfl⟩ := Except.map_eq_ok.1 h
  rfl

theorem Literal.readSigned?_kind {cs : List Char} {piece : Piece}
    (h : Literal.readSigned? cs = some piece) : piece.kind = .literal := by
  unfold Literal.readSigned? at h
  split at h
  · dsimp only at h
    split at h <;> cases h
    rfl
  · cases h

theorem Literal.read?_kind {operand : Bool} {cs : List Char} {piece : Piece}
    (h : Literal.read? operand cs = some (.ok piece)) :
    piece.kind = .literal ∨ piece.kind = .escapedString := by
  unfold Literal.read? at h
  split at h
  · exact .inl (Literal.readString_kind (Option.some.inj h))
  split at h
  · exact .inr (Literal.readSpecified_kind (Option.some.inj h))
  split at h
  · cases h
    exact .inl rfl
  split at h
  · obtain ⟨signed, found, same⟩ := Option.map_eq_some_iff.1 h
    cases same
    exact .inl (Literal.readSigned?_kind found)
  · cases h

theorem Name.read?_kind {wildcard bracket : Bool} {cs : List Char} {piece : Piece}
    (h : Name.read? wildcard bracket cs = some (.ok piece)) :
    piece.kind = .identifier ∨ piece.kind = .command := by
  have quoted {opening close : Char} {cs : List Char}
      (h : Name.readQuoted opening close cs = .ok piece) : piece.kind = .identifier := by
    unfold Name.readQuoted at h
    split at h <;> cases h
    rfl
  unfold Name.read? at h
  split at h
  · cases h
  split at h
  · cases h
    exact .inl rfl
  split at h
  · exact .inl (quoted (Option.some.inj h))
  split at h
  · exact .inl (quoted (Option.some.inj h))
  split at h
  · cases h
  cases h
  unfold Name.readWord
  dsimp only
  split
  · exact .inr rfl
  · split
    · exact .inr rfl
    · exact .inl rfl

theorem Symbol.read_kind {c : Char} {cs : List Char} {piece : Piece}
    (h : Symbol.read c cs = .ok piece) :
    piece.kind ∉ [.literal, .escapedString, .parameter, .command] := by
  unfold Symbol.read at h
  split at h
  case h_1 kind found =>
    cases h
    unfold Symbol.punctuation? at found
    simp only [Piece.verbatim]
    intro other
    revert found
    repeat' split
    all_goals rintro ⟨⟩ <;> revert other <;> decide
  case h_2 =>
    split at h
    · cases h
      simp [Piece.verbatim]
    · split at h <;> cases h
      simp [Piece.verbatim]

theorem Name.readParameter?_eq {ordinal : Nat} {c : Char} {cs : List Char} {piece : Piece}
    (h : Name.readParameter? ordinal (c :: cs) = some piece) : piece.kind = .parameter ∧
      (piece.source = ['?'] ∧ piece.text = toString (ordinal + 1) ∨ 2 ≤ Text.size piece.source) := by
  unfold Name.readParameter? at h
  dsimp only at h
  split at h
  · cases h
    exact ⟨rfl, .inl ⟨rfl, rfl⟩⟩
  split at h
  case isTrue named =>
    cases h
    refine ⟨rfl, .inr ?_⟩
    simp only [Bool.and_eq_true] at named
    obtain ⟨d, head, isWord⟩ := (Option.any_eq_true ..).1 named.2
    obtain ⟨ds, rfl⟩ := List.head?_eq_some_iff.1 head
    have first := c.utf8Size_pos
    have second := d.utf8Size_pos
    simp only [Name.word, List.takeWhile_cons, isWord, if_true, Text.size_cons]
    omega
  case isFalse => cases h

theorem Literal.read?_mark (operand : Bool) (cs : List Char) :
    Literal.read? operand ('?' :: cs) = none := by
  have specifier : Literal.specifier? ('?' :: cs) = none := by
    simp [Literal.specifier?, Literal.specifiers, Text.lowerChars]
  have number : Literal.startsNumber ('?' :: cs) = false := by simp [Literal.startsNumber]
  cases operand <;>
    simp [Literal.read?, specifier, number, Literal.readSigned?]

end Lexeme

namespace Piece

variable {previous : Option Token} {ordinal : Nat} {c : Char} {cs : List Char} {piece : Piece}

/-- Each reader has its turn once the ones before it find nothing. -/
theorem read_cases (h : Piece.read previous ordinal c cs = .ok piece) :
    Lexeme.Literal.read? (previous.all Token.expectsOperand) (c :: cs) = some (.ok piece) ∨
      Lexeme.Literal.read? (previous.all Token.expectsOperand) (c :: cs) = none ∧
        (Lexeme.Name.readParameter? ordinal (c :: cs) = some piece ∨
          Lexeme.Name.readParameter? ordinal (c :: cs) = none ∧
            (Lexeme.Name.read? (previous.all Token.precedesWildcard)
                (!previous.any fun l => l.isCommand "array") (c :: cs) = some (.ok piece) ∨
              Lexeme.Name.read? (previous.all Token.precedesWildcard)
                  (!previous.any fun l => l.isCommand "array") (c :: cs) = none ∧
                Lexeme.Symbol.read c cs = .ok piece)) := by
  unfold Piece.read at h
  split at h
  case h_1 found => exact .inl (h ▸ found)
  case h_2 literal =>
    refine .inr ⟨literal, ?_⟩
    split at h
    case h_1 found =>
      cases h
      exact .inl found
    case h_2 parameter =>
      refine .inr ⟨parameter, ?_⟩
      dsimp only at h
      split at h
      case h_1 found => exact .inl (h ▸ found)
      case h_2 name => exact .inr ⟨name, h⟩

theorem read_mark : Piece.read previous ordinal '?' cs =
    .ok ⟨.parameter, toString (ordinal + 1), ['?'], cs⟩ := by
  simp [Piece.read, Lexeme.Literal.read?_mark, Lexeme.Name.readParameter?]

theorem readParameter?_of_read (h : Piece.read previous ordinal c cs = .ok piece)
    (parameter : piece.kind = .parameter) :
    Lexeme.Name.readParameter? ordinal (c :: cs) = some piece := by
  rcases read_cases h with literal | ⟨_, found | ⟨_, name | ⟨_, symbol⟩⟩⟩
  · rcases Lexeme.Literal.read?_kind literal with kind | kind <;> simp [kind] at parameter
  · exact found
  · rcases Lexeme.Name.read?_kind name with kind | kind <;> simp [kind] at parameter
  · exact absurd (by simp [parameter]) (Lexeme.Symbol.read_kind symbol)

theorem read_parameter (h : Piece.read previous ordinal c cs = .ok piece)
    (parameter : piece.kind = .parameter) : piece.source = ['?'] ∧
      piece.text = toString (ordinal + 1) ∨ 2 ≤ Text.size piece.source :=
  (Lexeme.Name.readParameter?_eq (readParameter?_of_read h parameter)).2

/-- Strings and numbers come from their own reader. -/
theorem read_literal_kind (h : Piece.read previous ordinal c cs = .ok piece)
    (literal : piece.kind = .literal) :
    Lexeme.Literal.read? (previous.all Token.expectsOperand) (c :: cs) = some (.ok piece) := by
  rcases read_cases h with found | ⟨_, found | ⟨_, found | ⟨_, found⟩⟩⟩
  · exact found
  · rw [(Lexeme.Name.readParameter?_eq found).1] at literal
    cases literal
  · rcases Lexeme.Name.read?_kind found with kind | kind <;> simp [kind] at literal
  · exact absurd (by simp [literal]) (Lexeme.Symbol.read_kind found)

/-- Only a parameter can be read where its mark stands. -/
theorem read_source_mark (h : Piece.read previous ordinal c cs = .ok piece)
    (mark : piece.source = ['?']) : piece.kind = .parameter := by
  have text := (read_splits h).1
  rw [mark] at text
  obtain ⟨rfl, -⟩ := List.cons.inj text
  rw [read_mark] at h
  cases h
  rfl

end Piece

namespace Scan

variable {previous : Option Token} {ordinal position : Nat} {cs : List Char}
  {lexemes : List Lexeme}

/-- A scan is over after the gap, or meets a fault there, or reads a piece and goes on. -/
theorem run_outcome (previous : Option Token) (ordinal position : Nat) (cs : List Char) :
    (Scan.run previous ordinal position cs).outcome =
      match (Gap.skip position cs).rest with
      | [] => .ok []
      | c :: rest =>
        if Comment.startsBlock (c :: rest) then
          .error (.unclosedComment, (Gap.skip position cs).position)
        else match Piece.read previous ordinal c rest with
          | .error fault => .error (fault, (Gap.skip position cs).position)
          | .ok piece =>
            (Scan.run (some ⟨piece.kind, piece.text⟩) (ordinalAfter ordinal piece)
              (piece.lexemeAt (Gap.skip position cs).position).stop piece.rest).outcome.map
                (piece.lexemeAt (Gap.skip position cs).position :: ·) := by
  rw [Scan.run]
  dsimp only [withComments]
  split
  case h_1 left => rw [left]
  case h_2 c rest left =>
    rw [left]
    dsimp only
    split
    · rfl
    split
    case h_1 found => rw [found]
    case h_2 found =>
      rw [found]
      rfl

/-- A scan that succeeds ends after a gap, or reads one piece there and goes on. -/
theorem run_ok (h : (Scan.run previous ordinal position cs).outcome = .ok lexemes) :
    (Gap.skip position cs).rest = [] ∧ lexemes = [] ∨
      ∃ c rest piece later, (Gap.skip position cs).rest = c :: rest ∧
        Piece.read previous ordinal c rest = .ok piece ∧
        lexemes = piece.lexemeAt (Gap.skip position cs).position :: later ∧
        (Scan.run (some ⟨piece.kind, piece.text⟩)
          (ordinalAfter ordinal piece) (piece.lexemeAt (Gap.skip position cs).position).stop
          piece.rest).outcome = .ok later := by
  rw [run_outcome] at h
  split at h
  case h_1 ended =>
    cases h
    exact .inl ⟨ended, rfl⟩
  case h_2 c rest left =>
    split at h
    · cases h
    split at h
    · cases h
    case h_2 piece found =>
      obtain ⟨later, ran, rfl⟩ := Except.map_eq_ok.1 h
      exact .inr ⟨c, rest, piece, later, left, found, rfl, ran⟩

theorem run_of_scan {text : String} (h : (scan text).2 = .ok lexemes) :
    (Scan.run none 0 0 text.toList).outcome = .ok lexemes := by
  unfold scan at h
  dsimp only at h
  cases ran : (Scan.run none 0 0 text.toList).outcome with
  | error fault =>
    rw [ran] at h
    cases h
  | ok found =>
    rw [ran] at h
    cases h
    rfl

/-- Every lexeme of a scan was read as a piece somewhere. -/
theorem read_of_mem {l : Lexeme}
    (h : (Scan.run previous ordinal position cs).outcome = .ok lexemes) (mem : l ∈ lexemes) :
    ∃ previous ordinal position c rest piece,
      Piece.read previous ordinal c rest = .ok piece ∧ l = piece.lexemeAt position := by
  induction lexemes generalizing previous ordinal position cs with
  | nil => cases mem
  | cons first later ih =>
    rcases run_ok h with ⟨_, none⟩ | ⟨c, rest, piece, _, _, read, same, ran⟩
    · cases none
    obtain ⟨rfl, rfl⟩ := List.cons.inj same
    rcases List.mem_cons.1 mem with rfl | mem
    · exact ⟨_, _, _, c, rest, piece, read, rfl⟩
    · exact ih ran mem

end Scan

end SqlQuery
