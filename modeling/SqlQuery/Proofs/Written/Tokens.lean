import SqlQuery.Grammar.Value
import SqlQuery.Lexeme.Symbol
import SqlQuery.Proofs.Written.Marks

/-!
The tokens that marks stand for. Blanks stand for nothing, and no spelling matters.
-/

namespace SqlQuery

/-- The words of a text, which single blanks separate. -/
def blankSplit : List Char → List (List Char)
  | [] => [[]]
  | c :: cs =>
    if c == ' ' then [] :: blankSplit cs
    else match blankSplit cs with
      | [] => [[c]]
      | word :: words => (c :: word) :: words

def isSymbol (text : String) : Bool :=
  Lexeme.Symbol.compounds.contains text ||
    match text.toList with
    | [c] => Text.isOperatorChar c
    | _ => false

def punctuationKind? (text : String) : Option Kind :=
  match text.toList with
  | [c] => Lexeme.Symbol.punctuation? c
  | _ => none

def Token.ofWord (word : String) : Token :=
  ⟨if Keyword.isReserved word then .command else .identifier, word⟩

/-- A keyword and a symbol are one token, and any other text one for each of its words. -/
def plainTokens (text : String) : List Token :=
  if Keyword.isComplete text then [⟨.command, text⟩]
  else match punctuationKind? text with
    | some kind => [⟨kind, text⟩]
    | none =>
      if isSymbol text then [⟨.operator, text⟩]
      else (blankSplit text.toList).map fun word => Token.ofWord (String.ofList word)

def Literal.token : Literal → Token
  | .number text => ⟨.literal, text⟩
  | .string value => ⟨.literal, String.ofList (spellString value)⟩
  | .boolean value => ⟨.command, if value then "true" else "false"⟩
  | .null => ⟨.command, "null"⟩

namespace Mark

def tokens : Mark → List Token
  | .blank => []
  | .plain text => plainTokens text
  | .name text | .call text => [⟨.identifier, text⟩]
  | .literal value => [value.token]
  | .specified specifier value =>
    [⟨.escapedString, specifier ++ String.ofList value.spell⟩]
  | .parameter text => [⟨.parameter, text⟩]

/-- The tokens of marks in a row. -/
def read (marks : List Mark) : List Token := marks.flatMap tokens

@[simp] theorem read_nil : read [] = [] := rfl

@[simp] theorem read_cons (m : Mark) (ms : List Mark) : read (m :: ms) = m.tokens ++ read ms := rfl

@[simp] theorem read_append (a b : List Mark) : read (a ++ b) = read a ++ read b :=
  List.flatMap_append

@[simp] theorem read_spaced (parts : List (List Mark)) : read (spaced parts) = parts.flatMap read := by
  induction parts with
  | nil => rfl
  | cons part parts ih =>
    cases parts with
    | nil => simp
    | cons next parts =>
      rw [spaced_cons_cons, read_append, read_cons, ih]
      rfl

end Mark

def keywordToken (word : String) : Token := ⟨.command, word⟩

def wordToken (word : String) : Token := ⟨.identifier, word⟩

def commaToken : Token := ⟨.comma, ","⟩

def openToken : Token := ⟨.openParen, "("⟩

def closeToken : Token := ⟨.closeParen, ")"⟩

def dotToken : Token := ⟨.dot, "."⟩

def openBracketToken : Token := ⟨.openBracket, "["⟩

def closeBracketToken : Token := ⟨.closeBracket, "]"⟩

/-- Names that a point follows. -/
def dotted (namespaces : List String) : List Token :=
  namespaces.flatMap fun name => [wordToken name, dotToken]

/-- Parts with commas between them. -/
def commaTokens : List (List Token) → List Token
  | [] => []
  | part :: parts => part ++ parts.flatMap (commaToken :: ·)

namespace Mark

@[simp] theorem tokens_blank : Mark.blank.tokens = [] := rfl

@[simp] theorem tokens_name (name : String) : (Mark.name name).tokens = [wordToken name] := rfl

@[simp] theorem tokens_call (name : String) : (Mark.call name).tokens = [wordToken name] := rfl

@[simp] theorem tokens_comma : (Mark.plain ",").tokens = [commaToken] := by decide

@[simp] theorem tokens_open : (Mark.plain "(").tokens = [openToken] := by decide

@[simp] theorem tokens_close : (Mark.plain ")").tokens = [closeToken] := by decide

@[simp] theorem tokens_dot : (Mark.plain ".").tokens = [dotToken] := by decide

@[simp] theorem tokens_openBracket : (Mark.plain "[").tokens = [openBracketToken] := by decide

@[simp] theorem tokens_closeBracket : (Mark.plain "]").tokens = [closeBracketToken] := by decide

theorem read_qualify (namespaces : List String) (m : Mark) :
    read (qualify namespaces m) = dotted namespaces ++ m.tokens := by
  induction namespaces with
  | nil => simp [qualify, List.intercalate, dotted]
  | cons name namespaces ih =>
    rw [qualify_cons, read_cons, read_cons, ih]
    simp [dotted]

@[simp] theorem read_inParens (inner : List Mark) :
    read (inParens inner) = openToken :: read inner ++ [closeToken] := by
  simp [inParens]

@[simp] theorem read_commaSeparated (parts : List (List Mark)) :
    read (commaSeparated parts) = commaTokens (parts.map read) := by
  induction parts with
  | nil => rfl
  | cons part parts ih =>
    cases parts with
    | nil => simp [commaTokens]
    | cons next parts =>
      rw [commaSeparated_cons_cons, read_append, read_cons, read_cons, ih]
      simp [commaTokens]

/-- Clauses without marks have no tokens either. -/
@[simp] theorem read_clauseMarks (parts : List (List Mark)) :
    read (clauseMarks parts) = parts.flatMap read := by
  rw [clauseMarks, read_spaced]
  induction parts with
  | nil => rfl
  | cons part parts ih =>
    cases part with
    | nil => simpa using ih
    | cons m ms => simpa using ih

@[simp] theorem read_unaryMarks (d : Dialect) (operator : String) (operand : List Mark) :
    read (unaryMarks d operator operand) = (rawMark operator).tokens ++ read operand := by
  unfold unaryMarks
  dsimp only
  split <;> simp [rawMark]

theorem tokens_keyword {text : String} (h : Keyword.isComplete text = true) :
    (Mark.plain text).tokens = [⟨.command, text⟩] := by
  simp [tokens, plainTokens, h]

end Mark

end SqlQuery
