import SqlQuery.Text.Class

/-!
Lexemes: the classified pieces of a query text.
-/

namespace SqlQuery

inductive Kind where
  | unknown
  | literal
  | operator
  | openParen
  | closeParen
  | comma
  | dot
  | identifier
  | command
  | parameter
  | openBracket
  | closeBracket
  | comment
  | escapedString
  deriving DecidableEq, Repr

def Kind.label : Kind → String
  | .unknown => "unknown"
  | .literal => "literal"
  | .operator => "operator"
  | .openParen => "open paren"
  | .closeParen => "close paren"
  | .comma => "comma"
  | .dot => "dot"
  | .identifier => "identifier"
  | .command => "command"
  | .parameter => "parameter"
  | .openBracket => "open bracket"
  | .closeBracket => "close bracket"
  | .comment => "comment"
  | .escapedString => "escaped string constant"

/-- What a piece of text is to the grammar. Its text is normalised: a name without its quotes, a
keyword in lowercase. -/
structure Token where
  kind : Kind
  text : String
  deriving DecidableEq, Repr

namespace Token

def isCommand (t : Token) (keyword : String) : Bool := t.kind == .command && t.text == keyword

def isOperator (t : Token) (operator : String) : Bool := t.kind == .operator && t.text == operator

/-- A word in its place, whatever its case: `rows` or `first` are ordinary names elsewhere. -/
def isWord (t : Token) (word : String) : Bool :=
  (t.kind == .identifier || t.kind == .command) && Text.sameIgnoringCase t.text word

/-- Keywords that end an operand. -/
def operandEnds : List String := ["end", "null", "true", "false"]

/-- A sign after this token belongs to the number that follows it. -/
def expectsOperand (t : Token) : Bool :=
  match t.kind with
  | .operator | .openParen | .openBracket | .comma | .dot => true
  | .command => !operandEnds.contains t.text
  | _ => false

/-- A star after this token stands for all columns and is no product. -/
def precedesWildcard (t : Token) : Bool :=
  match t.kind with
  | .dot | .comma | .openParen => true
  | .command => t.expectsOperand
  | _ => false

end Token

/-- A token in its place: its position and stop are the byte offsets of what was read. -/
structure Lexeme extends Token where
  position : Nat
  stop : Nat
  deriving DecidableEq, Repr

namespace Lexeme

instance : Coe Lexeme Token := ⟨toToken⟩

def tokens (ls : List Lexeme) : List Token := ls.map toToken

/-- A lexeme written at the position exactly as its text. -/
def ofText (kind : Kind) (text : String) (position : Nat) : Lexeme :=
  ⟨⟨kind, text⟩, position, position + text.utf8ByteSize⟩

def describe (l : Lexeme) : String := l.kind.label ++ " `" ++ l.text ++ "`"

end Lexeme

end SqlQuery
