import SqlQuery.Proofs.Ending.Text
import SqlQuery.Proofs.Parsed.Node
import SqlQuery.Proofs.RoundTrip.Number
import SqlQuery.Proofs.RoundTrip.String
import SqlQuery.Proofs.Scanning.Legible

/-!
The texts of tokens that were scanned: what stands for a value can be written and is then scanned as
the same value.
-/

namespace SqlQuery

/-- The text of the token is one that a scan gives for its kind. -/
structure Token.Scanned (t : Token) : Prop where
  literal : t.kind = .literal → (Literal.ofText t.text).Fits ∧ (Literal.ofText t.text).Legible
  specified : t.kind = .escapedString → ∃ specifier ∈ tightSpecifiers, ∃ text,
    Expr.ofSpecified t.text = .specifiedString specifier (.string text) ∧
      isClosedBody text.toList = true
  parameter : t.kind = .parameter → t.text.toList ≠ [] ∧ ∀ c ∈ t.text.toList, Text.isWordChar c = true
  command : t.kind = .command → Keyword.isComplete t.text = true

theorem Literal.fits_string {value : String} (closed : isClosedBody value.toList = true) :
    (Literal.string value).Fits :=
  unquote_spellString closed

namespace Lexeme

variable {c : Char} {cs : List Char} {piece : Piece}

theorem Literal.readSpecified_eq {word : List Char} (h : readSpecified word cs = .ok piece) :
    ∃ body, piece.text.toList = word ++ '\x27' :: body ∧
      isClosedBody (unquote ('\x27' :: body)).toList = true := by
  obtain ⟨inner, read, rfl⟩ := Except.map_eq_ok.1 h
  have closed := closed_of_readString read
  unfold readString at read
  split at read
  · cases read
  · rename_i body rest found
    cases read
    exact ⟨body, by simp [Piece.verbatim], by simpa [Piece.verbatim] using closed⟩

end Lexeme

/-- A specifier ends where its quote begins. -/
theorem Expr.ofSpecified_append {text : String} {word body : List Char} (plain : '\x27' ∉ word)
    (same : text.toList = word ++ '\x27' :: body) : Expr.ofSpecified text =
      .specifiedString (String.ofList word) (.string (unquote ('\x27' :: body))) := by
  have before : ∀ c ∈ word, (c != '\x27') = true := by
    intro c mem
    rw [bne_iff_ne]
    rintro rfl
    exact plain mem
  rw [Expr.ofSpecified, same, List.takeWhile_append_of_pos before, List.dropWhile_append_of_pos before]
  simp

theorem specifiers_tight : ∀ word ∈ Lexeme.Literal.specifiers,
    String.ofList word ∈ tightSpecifiers ∧ '\x27' ∉ word := by
  decide

theorem fitsSpecifier_of_tight {specifier text : String} (tight : specifier ∈ tightSpecifiers)
    (closed : isClosedBody text.toList = true) : FitsSpecifier specifier (.string text) := by
  have plain : ∀ specifier ∈ tightSpecifiers, '\x27' ∉ specifier.toList := by decide
  rw [FitsSpecifier, if_pos tight]
  have same : (specifier ++ String.ofList (Literal.string text).spell).toList =
      specifier.toList ++ '\x27' :: (Text.doubled '\x27' text.toList ++ ['\x27']) := by
    simp [Literal.spell, spellString]
  rw [Expr.ofSpecified_append (plain specifier tight) same, String.ofList_toList]
  exact congrArg (fun value => Expr.specifiedString specifier (.string value)) (unquote_spellString closed)

namespace Lexeme

variable {c : Char} {cs : List Char} {piece : Piece}

theorem Literal.read?_specified {operand : Bool} (h : read? operand cs = some (.ok piece))
    (kind : piece.kind = .escapedString) : ∃ word ∈ specifiers, readSpecified word cs = .ok piece := by
  have other {found : Piece} (literal : found.kind = .literal) (same : found = piece) : False := by
    rw [same, kind] at literal
    cases literal
  unfold read? at h
  split at h
  · exact (other (readString_kind (Option.some.inj h)) rfl).elim
  split at h
  case h_1 word found => exact ⟨word, List.mem_of_find?_eq_some found, Option.some.inj h⟩
  split at h
  · have literal : (readNumber cs).kind = .literal := rfl
    exact (other literal (Except.ok.inj (Option.some.inj h))).elim
  split at h
  · obtain ⟨signed, found, same⟩ := Option.map_eq_some_iff.1 h
    exact (other (readSigned?_kind found) (Except.ok.inj same)).elim
  · cases h

theorem isWordChar_of_isDigit (digit : c.isDigit = true) : Text.isWordChar c = true := by
  have others : ∀ d ∈ Text.operatorChars ++ Text.punctuationChars, d.isDigit = false :=
    List.all_iff_forall_prop.1 (by decide)
  have apart (d : Char) (mem : d ∈ Text.operatorChars ++ Text.punctuationChars) : c ≠ d :=
    ne_of_digit digit (others d mem)
  have operator : c ∉ Text.operatorChars := fun mem => apart c (List.mem_append_left _ mem) rfl
  have punctuation : c ∉ Text.punctuationChars := fun mem => apart c (List.mem_append_right _ mem) rfl
  simp [Text.isWordChar, Text.isDelimiter, Text.isOperatorChar, not_blank_of_digit digit, operator,
    punctuation]

/-- A parameter is named by its number or by the word after its mark. -/
theorem Name.readParameter?_text {ordinal : Nat} (h : readParameter? ordinal cs = some piece) :
    piece.text.toList ≠ [] ∧ ∀ c ∈ piece.text.toList, Text.isWordChar c = true := by
  unfold readParameter? at h
  split at h
  · cases h
  split at h
  · cases h
    have chars : (toString (ordinal + 1)).toList = Nat.toDigits 10 (ordinal + 1) := Nat.toList_repr
    dsimp only
    rw [chars]
    refine ⟨Nat.toDigits_ne_nil, fun c mem => isWordChar_of_isDigit ?_⟩
    exact Nat.isDigit_of_mem_toDigits (by decide) (by decide) mem
  split at h
  case isTrue named =>
    cases h
    simp only [Bool.and_eq_true] at named
    obtain ⟨d, head, isWord⟩ := (Option.any_eq_true ..).1 named.2
    obtain ⟨ds, rfl⟩ := List.head?_eq_some_iff.1 head
    simp [word, isWord]
    exact fun c mem => List.mem_takeWhile_imp mem
  case isFalse => cases h

end Lexeme

namespace Piece

variable {previous : Option Token} {ordinal : Nat} {c : Char} {cs : List Char} {piece : Piece}

theorem read_specified (h : Piece.read previous ordinal c cs = .ok piece)
    (kind : piece.kind = .escapedString) : ∃ word ∈ Lexeme.Literal.specifiers,
      Lexeme.Literal.readSpecified word (c :: cs) = .ok piece := by
  rcases read_cases h with literal | ⟨_, found | ⟨_, name | ⟨_, symbol⟩⟩⟩
  · exact Lexeme.Literal.read?_specified literal kind
  · simp [(Lexeme.Name.readParameter?_eq found).1] at kind
  · rcases Lexeme.Name.read?_kind name with other | other <;> simp [other] at kind
  · exact absurd (by simp [kind]) (Lexeme.Symbol.read_kind symbol)

theorem scanned (h : Piece.read previous ordinal c cs = .ok piece) :
    Token.Scanned ⟨piece.kind, piece.text⟩ where
  literal := by
    intro kind
    unfold Literal.ofText
    split
    case isTrue quoted =>
      have closed := closed_of_readString (readString_of_read h kind quoted)
      exact ⟨Literal.fits_string closed, closed⟩
    case isFalse other =>
      have unquoted : isQuoted piece.text = false := by simpa using other
      obtain ⟨digits, isNumber, plain | signed⟩ :=
        Lexeme.Literal.read?_number (read_literal_kind h kind) kind unquoted
      · exact ⟨unquoted, .inl (plain ▸ isNumber)⟩
      · exact ⟨unquoted, .inr ⟨digits, signed, isNumber⟩⟩
  specified := by
    intro kind
    obtain ⟨word, mem, read⟩ := read_specified h kind
    obtain ⟨body, text, closed⟩ := Lexeme.Literal.readSpecified_eq read
    obtain ⟨tight, plain⟩ := specifiers_tight word mem
    exact ⟨_, tight, _, Expr.ofSpecified_append plain text, closed⟩
  parameter := fun kind => Lexeme.Name.readParameter?_text (readParameter?_of_read h kind)
  command := fun kind => read_known h kind

end Piece

/-- Every token of a text that is scanned. -/
theorem scanned_of_scan {text : String} {ls : List Lexeme} (h : (scan text).2 = .ok ls) :
    ∀ t ∈ Lexeme.tokens ls, t.Scanned := by
  refine List.forall_mem_map.2 fun l mem => ?_
  obtain ⟨_, _, _, c, rest, piece, read, rfl⟩ := Scan.read_of_mem (Scan.run_of_scan h) mem
  exact Piece.scanned read

end SqlQuery
