import SqlQuery.Lexeme.Comment
import SqlQuery.Lexeme.Literal
import SqlQuery.Lexeme.Name
import SqlQuery.Lexeme.Symbol
import SqlQuery.Text.Excerpt

/-!
Scanning a text into its lexemes. What a sign, a star or a bracket means depends on the lexeme
before it, and nothing else does.
-/

namespace SqlQuery

/-- Reads the piece that starts with `c`, after a lexeme and so many anonymous parameters. -/
def Piece.read (previous : Option Token) (ordinal : Nat) (c : Char) (cs : List Char) :
    Except Fault Piece :=
  match Lexeme.Literal.read? (previous.all Token.expectsOperand) (c :: cs) with
  | some result => result
  | none =>
    match Lexeme.Name.readParameter? ordinal (c :: cs) with
    | some piece => .ok piece
    | none =>
      let wildcard := previous.all Token.precedesWildcard
      let bracket := !previous.any fun l => l.isCommand "array"
      match Lexeme.Name.read? wildcard bracket (c :: cs) with
      | some result => result
      | none => Lexeme.Symbol.read c cs

theorem Piece.read_splits {previous : Option Token} {ordinal : Nat} {c : Char} {cs : List Char}
    {piece : Piece} (h : Piece.read previous ordinal c cs = .ok piece) :
    piece.Splits (c :: cs) := by
  unfold Piece.read at h
  split at h
  case h_1 found => exact Lexeme.Literal.read?_splits (h ▸ found)
  case h_2 =>
    split at h
    case h_1 found => exact Lexeme.Name.readParameter?_splits (Except.ok.inj h ▸ found)
    case h_2 =>
      dsimp only at h
      split at h
      case h_1 found => exact Lexeme.Name.read?_splits (h ▸ found)
      case h_2 => exact Lexeme.Symbol.read_splits h

/-- A fault, the byte offset of what it is about, and an excerpt of the text there. -/
structure ScanError where
  fault : Fault
  position : Nat
  context : String
  deriving DecidableEq, Repr

def Fault.describe : Fault → Nat → String
  | .unclosedIdentifier delimiter, position =>
    "Closing delimiter `" ++ toString delimiter ++ "` not found at position " ++ toString position
  | .unclosedString, position => "Single quote is not closed at position " ++ toString position
  | .unclosedComment, position => "Block comment is not closed at position " ++ toString position
  | .unexpectedCharacter c, position =>
    "Unexpected character `" ++ toString c ++ "` at position " ++ toString position

def ScanError.message (e : ScanError) : String :=
  e.fault.describe e.position ++ "\n" ++ e.context

/-- The comments met, and the lexemes or the first fault with its position. -/
structure Scan where
  comments : List Lexeme
  outcome : Except (Fault × Nat) (List Lexeme)

namespace Scan

def withComments (comments : List Lexeme) (scan : Scan) : Scan :=
  { scan with comments := comments ++ scan.comments }

def withLexeme (lexeme : Lexeme) (scan : Scan) : Scan :=
  { scan with outcome := scan.outcome.map (lexeme :: ·) }

/-- The anonymous parameters up to and with this piece. -/
def ordinalAfter (ordinal : Nat) (piece : Piece) : Nat :=
  if piece.source = ['?'] then ordinal + 1 else ordinal

/-- Scans the text from a position on. -/
def run (previous : Option Token) (ordinal position : Nat) (cs : List Char) : Scan :=
  let gap := Gap.skip position cs
  withComments gap.comments <|
    match _left : gap.rest with
    | [] => ⟨[], .ok []⟩
    | c :: rest =>
      if Comment.startsBlock (c :: rest) then ⟨[], .error (.unclosedComment, gap.position)⟩
      else match _found : Piece.read previous ordinal c rest with
        | .error fault => ⟨[], .error (fault, gap.position)⟩
        | .ok piece =>
          let lexeme := piece.lexemeAt gap.position
          withLexeme lexeme (run (some lexeme.toToken) (ordinalAfter ordinal piece) lexeme.stop piece.rest)
termination_by cs.length
decreasing_by
  have shorter := (Piece.read_splits _found).rest_lt
  have skipped := Gap.rest_le position cs
  have same := congrArg List.length _left
  exact Nat.lt_of_lt_of_le (same ▸ shorter) skipped

end Scan

/-- The comments of a text and its lexemes, or the error that ends them. -/
def scan (text : String) : List Lexeme × Except ScanError (List Lexeme) :=
  let result := Scan.run none 0 0 text.toList
  (result.comments, result.outcome.mapError fun (fault, position) =>
    ⟨fault, position, (Text.excerptAt? text position).getD ""⟩)

end SqlQuery
