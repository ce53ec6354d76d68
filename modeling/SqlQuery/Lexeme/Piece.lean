import SqlQuery.Lexeme

/-!
Pieces of text: a lexeme read off the front, what it takes of the text and what it leaves.
-/

namespace SqlQuery

/-- Why no lexeme can be read. -/
inductive Fault where
  | unclosedIdentifier (delimiter : Char)
  | unclosedString
  | unclosedComment
  | unexpectedCharacter (character : Char)
  deriving DecidableEq, Repr

/-- The text read is `source ++ rest`, and `source` is what the lexeme takes of it. -/
structure Piece where
  kind : Kind
  text : String
  source : List Char
  rest : List Char
  deriving DecidableEq, Repr

namespace Piece

/-- A piece whose text is just what it takes. -/
def verbatim (kind : Kind) (source rest : List Char) : Piece :=
  ⟨kind, String.ofList source, source, rest⟩

/-- The lexeme of a piece that starts at the position. -/
def lexemeAt (piece : Piece) (position : Nat) : Lexeme :=
  ⟨⟨piece.kind, piece.text⟩, position, position + Text.size piece.source⟩

/-- The piece takes some of the text off its front and loses none. -/
def Splits (piece : Piece) (cs : List Char) : Prop :=
  piece.source ++ piece.rest = cs ∧ piece.source ≠ []

theorem Splits.rest_lt {piece : Piece} {cs : List Char} (h : piece.Splits cs) :
    piece.rest.length < cs.length := by
  have taken := List.length_pos_iff.2 h.2
  rw [← h.1, List.length_append]
  omega

end Piece

end SqlQuery
