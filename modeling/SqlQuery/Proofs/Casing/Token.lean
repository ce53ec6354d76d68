import SqlQuery.Lexeme.Piece
import SqlQuery.Proofs.Casing.Text

/-!
Tokens in lowercase. The text of a keyword or an operator has one case only, and no test of a token
asks for the case of another text.
-/

namespace SqlQuery

/-- The text of such a token is chosen from a list and not copied from the source. -/
def Kind.isFixed : Kind → Bool
  | .command | .operator => true
  | _ => false

namespace Token

variable {t t' : Token}

/-- The token with its text in lowercase, unless it is a keyword or an operator. -/
def lower (t : Token) : Token := if t.kind.isFixed then t else ⟨t.kind, Text.lower t.text⟩

@[simp] theorem lower_kind (t : Token) : t.lower.kind = t.kind := by
  unfold lower
  split <;> rfl

theorem lower_fixed (fixed : t.kind.isFixed = true) : t.lower = t := if_pos fixed

theorem lower_text (free : t.kind.isFixed = false) : t.lower.text = Text.lower t.text := by
  rw [lower, free]
  rfl

@[simp] theorem lower_lower_text (t : Token) : Text.lower t.lower.text = Text.lower t.text := by
  unfold lower
  split
  · rfl
  · exact Text.lower_lower t.text

theorem lower_eq (t : Token) : t.lower = ⟨t.kind, t.lower.text⟩ := by
  rw [← lower_kind t]

theorem text_of_kind {kind : Kind} (fixed : kind.isFixed = true) (h : t.kind = kind) :
    t.lower.text = t.text := by
  rw [lower_fixed (h ▸ fixed)]

/-- A test of kind and text that asks for the text of keywords or operators alone. -/
theorem lower_kind_and {kind : Kind} (fixed : kind.isFixed = true) (p : String → Bool) (t : Token) :
    (t.lower.kind == kind && p t.lower.text) = (t.kind == kind && p t.text) := by
  rw [lower_kind]
  by_cases h : t.kind = kind
  · rw [text_of_kind fixed h]
  · rw [beq_eq_false_iff_ne.2 h]
    rfl

@[simp] theorem isCommand_lower (t : Token) (keyword : String) :
    t.lower.isCommand keyword = t.isCommand keyword :=
  lower_kind_and rfl (· == keyword) t

@[simp] theorem isOperator_lower (t : Token) (operator : String) :
    t.lower.isOperator operator = t.isOperator operator :=
  lower_kind_and rfl (· == operator) t

@[simp] theorem isWord_lower (t : Token) (word : String) : t.lower.isWord word = t.isWord word := by
  simp [isWord, Text.sameIgnoringCase]

@[simp] theorem expectsOperand_lower (t : Token) : t.lower.expectsOperand = t.expectsOperand := by
  unfold expectsOperand
  rw [lower_kind]
  split
  case h_6 command => rw [text_of_kind rfl command]
  all_goals rfl

@[simp] theorem precedesWildcard_lower (t : Token) :
    t.lower.precedesWildcard = t.precedesWildcard := by
  unfold precedesWildcard
  rw [lower_kind, expectsOperand_lower]

end Token

namespace Lexeme

/-- The lexeme with its token in lowercase. -/
def lower (l : Lexeme) : Lexeme := ⟨l.toToken.lower, l.position, l.stop⟩

end Lexeme

namespace Piece

/-- The piece of the text in lowercase. -/
def lower (piece : Piece) : Piece :=
  ⟨piece.kind, (Token.lower ⟨piece.kind, piece.text⟩).text, Text.lowerChars piece.source,
    Text.lowerChars piece.rest⟩

theorem lower_ofList {kind : Kind} (free : kind.isFixed = false) (text source rest : List Char) :
    lower ⟨kind, String.ofList text, source, rest⟩ =
      ⟨kind, String.ofList (Text.lowerChars text), Text.lowerChars source,
        Text.lowerChars rest⟩ := by
  rw [lower, Token.lower_text free, Text.lower_ofList]

theorem lower_verbatim {kind : Kind} (free : kind.isFixed = false) (source rest : List Char) :
    (verbatim kind source rest).lower =
      verbatim kind (Text.lowerChars source) (Text.lowerChars rest) :=
  lower_ofList free source source rest

/-- A piece without letters is in lowercase already. -/
theorem lower_symbol {source : List Char} (others : Text.noLetter source = true)
    (kind : Kind) (rest : List Char) :
    (verbatim kind source rest).lower = verbatim kind source (Text.lowerChars rest) := by
  have same : Text.lowerChars source = source := (Text.lowerChars_eq_iff others).2 rfl
  cases fixed : kind.isFixed with
  | false => rw [lower_verbatim fixed, same]
  | true =>
    rw [verbatim, lower, Token.lower_fixed fixed, same]
    rfl

theorem lexemeAt_lower (piece : Piece) (position : Nat) :
    piece.lower.lexemeAt position = (piece.lexemeAt position).lower := by
  rw [lexemeAt, Lexeme.lower, lexemeAt, Token.lower_eq, lower, Text.size_lowerChars]

end Piece

end SqlQuery
