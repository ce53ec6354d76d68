import SqlQuery.Lexeme.Piece

/-!
Number and string literals. Every reader splits its text into what it takes and the rest.
-/

namespace SqlQuery.Lexeme.Literal

open Text

/-- Takes the characters of the class at the front. -/
def run (p : Char → Bool) (cs : List Char) : List Char × List Char :=
  (cs.takeWhile p, cs.dropWhile p)

def startsNumber : List Char → Bool
  | c :: rest => c.isDigit || (c == '.' && rest.head?.any Char.isDigit)
  | [] => false

/-- The digits that a radix letter after `0` admits. -/
def radixDigit? (letter : Char) : Option (Char → Bool) :=
  if letter == 'x' || letter == 'X' then some isHexDigit
  else if letter == 'b' || letter == 'B' then some isBinaryDigit
  else if letter == 'o' || letter == 'O' then some isOctalDigit
  else none

/-- A number such as `0x1f`: the letter needs a digit after it. -/
def radix? : List Char → Option (List Char × List Char)
  | '0' :: letter :: cs =>
    (radixDigit? letter).bind fun digit =>
      if cs.head?.any digit then
        some ('0' :: letter :: (run digit cs).1, (run digit cs).2)
      else none
  | _ => none

/-- A point with the digits after it; two points in a row are left alone. -/
def fraction : List Char → List Char × List Char
  | '.' :: cs =>
    if cs.head? == some '.' then ([], '.' :: cs)
    else ('.' :: (run Char.isDigit cs).1, (run Char.isDigit cs).2)
  | cs => ([], cs)

def sign : List Char → List Char × List Char
  | c :: cs => if c == '+' || c == '-' then ([c], cs) else ([], c :: cs)
  | [] => ([], [])

/-- An exponent, if a digit stands where its digits begin. -/
def exponent : List Char → List Char × List Char
  | e :: cs =>
    let (mark, digits) := sign cs
    if (e == 'e' || e == 'E') && digits.head?.any Char.isDigit then
      (e :: mark ++ (run Char.isDigit digits).1, (run Char.isDigit digits).2)
    else ([], e :: cs)
  | [] => ([], [])

def decimal (cs : List Char) : List Char × List Char :=
  let whole := run Char.isDigit cs
  let part := fraction whole.2
  let power := exponent part.2
  (whole.1 ++ part.1 ++ power.1, power.2)

def number (cs : List Char) : List Char × List Char := (radix? cs).getD (decimal cs)

/-- Numbers are written with a digit in front of the point. -/
def numberText (source : List Char) : List Char :=
  if source.head? == some '.' then '0' :: source else source

/-- A string after its opening quote, and the rest. A quote inside is doubled or escaped. -/
def string? : List Char → Option (List Char × List Char)
  | [] => none
  | '\\' :: c :: cs => (string? cs).map fun (body, rest) => ('\\' :: c :: body, rest)
  | '\x27' :: '\x27' :: cs => (string? cs).map fun (body, rest) => ('\x27' :: '\x27' :: body, rest)
  | '\x27' :: cs => some (['\x27'], cs)
  | c :: cs => (string? cs).map fun (body, rest) => (c :: body, rest)

/-- What may stand directly before the quote of a string. -/
def specifiers : List (List Char) := [['u', '&'], ['e'], ['x'], ['b']]

/-- The specifier at the front, in any case, with a quote after it. -/
def specifier? (cs : List Char) : Option (List Char) :=
  specifiers.find? fun word =>
    lowerChars (cs.take word.length) == word && (cs.drop word.length).head? == some '\x27'

def readNumber (cs : List Char) : Piece :=
  let (source, rest) := number cs
  ⟨.literal, String.ofList (numberText source), source, rest⟩

/-- A sign with its number, where a sign cannot be an operator. -/
def readSigned? : List Char → Option Piece
  | sign :: cs =>
    let (blanks, digits) := run isBlank cs
    if (sign == '+' || sign == '-') && startsNumber digits then
      let (source, rest) := number digits
      let minus := if sign == '-' then ['-'] else []
      some ⟨.literal, String.ofList (minus ++ numberText source), sign :: blanks ++ source, rest⟩
    else none
  | [] => none

/-- A string with the opening quote at the front. -/
def readString (cs : List Char) : Except Fault Piece :=
  match string? (cs.drop 1) with
  | none => .error .unclosedString
  | some (body, rest) => .ok (.verbatim .literal ('\x27' :: body) rest)

/-- A string after its specifier, which is written in lowercase. -/
def readSpecified (word cs : List Char) : Except Fault Piece :=
  (readString (cs.drop word.length)).map fun piece =>
    { piece with
      kind := .escapedString
      text := String.ofList (word ++ piece.source)
      source := cs.take word.length ++ piece.source }

def read? (operand : Bool) (cs : List Char) : Option (Except Fault Piece) :=
  if cs.head? == some '\x27' then some (readString cs)
  else match specifier? cs with
    | some word => some (readSpecified word cs)
    | none =>
      if startsNumber cs then some (.ok (readNumber cs))
      else if operand then (readSigned? cs).map .ok
      else none

theorem run_append (p : Char → Bool) (cs : List Char) : (run p cs).1 ++ (run p cs).2 = cs :=
  List.takeWhile_append_dropWhile

theorem radix?_append {cs source rest : List Char} (h : radix? cs = some (source, rest)) :
    source ++ rest = cs ∧ source ≠ [] := by
  unfold radix? at h
  split at h
  · obtain ⟨digit, _, found⟩ := Option.bind_eq_some_iff.1 h
    split at found
    · cases found
      simp [run_append]
    · simp at found
  · simp at h

theorem fraction_append (cs : List Char) : (fraction cs).1 ++ (fraction cs).2 = cs := by
  unfold fraction
  split
  · split <;> simp [run_append]
  · simp

theorem sign_append (cs : List Char) : (sign cs).1 ++ (sign cs).2 = cs := by
  unfold sign
  split
  · split <;> rfl
  · rfl

theorem exponent_append (cs : List Char) : (exponent cs).1 ++ (exponent cs).2 = cs := by
  unfold exponent
  split
  · dsimp only
    split
    · simp [run_append, sign_append]
    · rfl
  · rfl

theorem decimal_append (cs : List Char) : (decimal cs).1 ++ (decimal cs).2 = cs := by
  simp [decimal, exponent_append, fraction_append, run_append]

theorem decimal_taken {cs : List Char} (h : startsNumber cs) : (decimal cs).1 ≠ [] := by
  unfold startsNumber at h
  split at h
  case h_1 c rest =>
    by_cases digit : c.isDigit
    · simp [decimal, run, digit]
    · simp only [digit, Bool.false_or, Bool.and_eq_true, beq_iff_eq] at h
      obtain ⟨rfl, next⟩ := h
      have apart : rest.head? ≠ some '.' := by
        intro eq
        simp [eq] at next
      simp [decimal, run, fraction, apart]
  case h_2 => simp at h

theorem number_append (cs : List Char) : (number cs).1 ++ (number cs).2 = cs := by
  unfold number
  cases h : radix? cs with
  | none => exact decimal_append cs
  | some result => exact (radix?_append h).1

theorem number_taken {cs : List Char} (h : startsNumber cs) : (number cs).1 ≠ [] := by
  unfold number
  cases found : radix? cs with
  | none => exact decimal_taken h
  | some result => exact (radix?_append found).2

theorem string?_append {cs body rest : List Char} (h : string? cs = some (body, rest)) :
    body ++ rest = cs := by
  induction cs using string?.induct generalizing body with
  | case1 => simp [string?] at h
  | case2 c cs ih =>
    rw [string?] at h
    obtain ⟨⟨b, r⟩, found, eq⟩ := Option.map_eq_some_iff.1 h
    cases eq
    simp [ih found]
  | case3 cs ih =>
    rw [string?] at h
    obtain ⟨⟨b, r⟩, found, eq⟩ := Option.map_eq_some_iff.1 h
    cases eq
    simp [ih found]
  | case4 cs single =>
    rw [string?] at h
    · cases h
      rfl
    · exact single
  | case5 c cs no_escape no_double no_quote ih =>
    rw [string?] at h
    · obtain ⟨⟨b, r⟩, found, eq⟩ := Option.map_eq_some_iff.1 h
      cases eq
      simp [ih found]
    all_goals assumption

theorem readString_splits {cs : List Char} {piece : Piece} (quote : cs.head? = some '\x27')
    (h : readString cs = .ok piece) : piece.Splits cs := by
  obtain ⟨cs, rfl⟩ := List.head?_eq_some_iff.1 quote
  unfold readString at h
  split at h
  · simp at h
  · rename_i found
    cases h
    simp [Piece.Splits, Piece.verbatim, string?_append found]

theorem specifier?_quote {cs word : List Char} (h : specifier? cs = some word) :
    (cs.drop word.length).head? = some '\x27' := by
  have found := List.find?_some h
  simp only [Bool.and_eq_true, beq_iff_eq] at found
  exact found.2

theorem readSpecified_splits {cs word : List Char} {piece : Piece}
    (quote : (cs.drop word.length).head? = some '\x27')
    (h : readSpecified word cs = .ok piece) : piece.Splits cs := by
  unfold readSpecified at h
  cases found : readString (cs.drop word.length) with
  | error fault => simp [found, Except.map] at h
  | ok body =>
    have split := readString_splits quote found
    simp only [found, Except.map, Except.ok.injEq] at h
    subst h
    constructor
    · rw [List.append_assoc, split.1, List.take_append_drop]
    · simp [split.2]

theorem readNumber_splits {cs : List Char} (h : startsNumber cs) : (readNumber cs).Splits cs :=
  ⟨number_append cs, number_taken h⟩

theorem readSigned?_splits {cs : List Char} {piece : Piece} (h : readSigned? cs = some piece) :
    piece.Splits cs := by
  unfold readSigned? at h
  split at h
  · dsimp only at h
    split at h
    · cases h
      simp [Piece.Splits, number_append, run_append]
    · simp at h
  · simp at h

/-- A literal takes some of the text and loses none. -/
theorem read?_splits {operand : Bool} {cs : List Char} {piece : Piece}
    (h : read? operand cs = some (.ok piece)) : piece.Splits cs := by
  unfold read? at h
  split at h
  case isTrue quote =>
    exact readString_splits (by simpa using quote) (Option.some.inj h)
  case isFalse =>
    split at h
    case h_1 word found => exact readSpecified_splits (specifier?_quote found) (Option.some.inj h)
    case h_2 =>
      split at h
      case isTrue starts =>
        cases h
        exact readNumber_splits starts
      case isFalse =>
        split at h
        · obtain ⟨signed, found, eq⟩ := Option.map_eq_some_iff.1 h
          cases eq
          exact readSigned?_splits found
        · simp at h

end SqlQuery.Lexeme.Literal
