/-!
Character classes of query text. A bare word runs up to the first delimiter, so the classes decide
where one lexeme ends and the next may begin.
-/

namespace SqlQuery.Text

/-- Separates lexemes and means nothing else. -/
def isBlank (c : Char) : Bool :=
  c == ' ' || c == '\t' || c == '\n' || c == '\r' || c == '\x0b' || c == '\x0c'

def operatorChars : List Char :=
  ['+', '-', '*', '/', '%', '=', '<', '>', '!', '~', '&', '|', '^', '#', '@']

def isOperatorChar (c : Char) : Bool := operatorChars.contains c

def punctuationChars : List Char :=
  ['(', ')', '[', ']', '\x7b', '\x7d', ',', '.', ';', ':', '?', '\x27', '\x22', '\x60']

/-- Ends a bare word. -/
def isDelimiter (c : Char) : Bool :=
  isBlank c || isOperatorChar c || punctuationChars.contains c

def isWordChar (c : Char) : Bool := !isDelimiter c

def isHexDigit (c : Char) : Bool :=
  c.isDigit || ('a' ≤ c && c ≤ 'f') || ('A' ≤ c && c ≤ 'F')

def isOctalDigit (c : Char) : Bool := '0' ≤ c && c ≤ '7'

def isBinaryDigit (c : Char) : Bool := c == '0' || c == '1'

/-- A letter or digit of ASCII. -/
def isAlphanum (c : Char) : Bool := c.isAlpha || c.isDigit

/-- Lowercases the letters of ASCII and keeps every other character. -/
def lowerChars (cs : List Char) : List Char := cs.map Char.toLower

def lower (s : String) : String := String.ofList (lowerChars s.toList)

/-- Equal once the case of ASCII letters is ignored. -/
def sameIgnoringCase (s t : String) : Bool := lower s == lower t

/-- The number of bytes that the characters take in UTF-8. -/
def size : List Char → Nat
  | [] => 0
  | c :: cs => c.utf8Size + size cs

@[simp] theorem size_nil : size [] = 0 := rfl

@[simp] theorem size_cons (c : Char) (cs : List Char) : size (c :: cs) = c.utf8Size + size cs := rfl

@[simp] theorem size_append (a b : List Char) : size (a ++ b) = size a + size b := by
  induction a with
  | nil => simp
  | cons c cs ih => simp [ih, Nat.add_assoc]

end SqlQuery.Text
