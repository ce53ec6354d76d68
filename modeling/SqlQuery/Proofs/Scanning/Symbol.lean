import SqlQuery.Proofs.Scanning.Literal
import SqlQuery.Proofs.Written.Known

/-!
Punctuation and operators are scanned back. A sign and a star mean something else where an operand
or all columns could stand.
-/

namespace SqlQuery

/-- After this token no sign belongs to a number and no star stands for all columns. -/
def Token.closes (t : Token) : Bool := !t.expectsOperand && !t.precedesWildcard

def symbolChars : List Char := ['(', ')', ',', '[', ']', '.', ':'] ++ Text.operatorChars

namespace Scans

variable {d : Dialect} {previous : Option Token} {c : Char} {cs : List Char} {ts : List Token}

/-- What a symbol could be taken for where it stands. -/
structure IsSymbolAt (previous : Option Token) (c : Char) (cs : List Char) : Prop where
  comment : startsComment (c :: cs) = false
  sign : c = '+' ∨ c = '-' → previous.all Token.expectsOperand = true →
    Lexeme.Literal.startsNumber (cs.dropWhile Text.isBlank) = false
  point : c = '.' → cs.head?.any Char.isDigit = false
  mark : c = ':' ∨ c = '@' → cs.head?.any Text.isWordChar = false
  star : c = '*' → previous.all Token.precedesWildcard = false
  bracket : c = '[' → previous.any (fun l => l.isCommand "array") = true

/-- A character of no other reader is a symbol. -/
theorem symbol {t : Token} {rest : List Char} (source : List Char) (mem : c ∈ symbolChars)
    (h : IsSymbolAt previous c cs)
    (read : Lexeme.Symbol.read c cs = .ok ⟨t.kind, t.text, source, rest⟩)
    (later : Scans d (some t) rest ts) : Scans d previous (c :: cs) (t :: ts) := by
  have facts : ∀ c ∈ symbolChars, Text.isBlank c = false ∧ c ≠ '\x27' ∧
      c.toLower ∉ specifierLetters ∧ c.isDigit = false := List.all_iff_forall_prop.1 (by decide)
  have names : ∀ c ∈ symbolChars, c ≠ '?' ∧ c ≠ '$' ∧ c ≠ '\x60' ∧ c ≠ '\x22' ∧
      Text.isDelimiter c = true := List.all_iff_forall_prop.1 (by decide)
  obtain ⟨blank, quote, letter, digit⟩ := facts c mem
  obtain ⟨question, dollar, tick, double, delimiter⟩ := names c mem
  have specifier := specifier?_none_of_first letter cs
  have number : Lexeme.Literal.startsNumber (c :: cs) = false := by
    by_cases point : c = '.'
    · simp [Lexeme.Literal.startsNumber, point, h.point point]
    · simp [Lexeme.Literal.startsNumber, digit, point]
  have literal : Lexeme.Literal.read? (previous.all Token.expectsOperand) (c :: cs) = none := by
    have signed : previous.all Token.expectsOperand = true →
        Lexeme.Literal.readSigned? (c :: cs) = none := by
      intro operand
      by_cases sign : c = '+' ∨ c = '-'
      · simp [Lexeme.Literal.readSigned?, Lexeme.Literal.run, h.sign sign operand]
      · simp only [not_or] at sign
        simp [Lexeme.Literal.readSigned?, sign]
    unfold Lexeme.Literal.read?
    simp only [List.head?_cons, specifier, number, Bool.false_eq_true, if_false]
    rw [if_neg (by simpa using quote)]
    split
    · rename_i operand
      simp [signed operand]
    · rfl
  have parameter (ordinal : Nat) : Lexeme.Name.readParameter? ordinal (c :: cs) = none := by
    by_cases mark : c = ':' ∨ c = '@'
    · simp [Lexeme.Name.readParameter?, question, h.mark mark]
    · simp only [not_or] at mark
      simp [Lexeme.Name.readParameter?, question, dollar, mark]
  have name : Lexeme.Name.read? (previous.all Token.precedesWildcard)
      (!previous.any fun l => l.isCommand "array") (c :: cs) = none := by
    by_cases star : c = '*'
    · simp [Lexeme.Name.read?, star, h.star star]
      decide
    by_cases bracket : c = '['
    · simp [Lexeme.Name.read?, bracket, h.bracket bracket]
      decide
    · simp [Lexeme.Name.read?, star, bracket, tick, double, delimiter]
  have other : t.kind ≠ .parameter := fun same => Lexeme.Symbol.read_kind read (by simp [same])
  refine Scans.piece source blank h.comment (fun ordinal => ?_) (fun same => absurd same other) later
  rw [Piece.read_symbol literal (parameter ordinal) name, read]

/-- The punctuation that is read alike everywhere. -/
theorem punctuation {kind : Kind} (mem : c ∈ ['(', ')', ',', ']'])
    (known : Lexeme.Symbol.punctuation? c = some kind)
    (later : Scans d (some ⟨kind, String.ofList [c]⟩) cs ts) :
    Scans d previous (c :: cs) (⟨kind, String.ofList [c]⟩ :: ts) := by
  have others : ∀ c ∈ ['(', ')', ',', ']'], c ∈ symbolChars ∧ c ≠ '/' ∧ c ≠ '-' ∧ c ≠ '+' ∧
      c ≠ '.' ∧ c ≠ ':' ∧ c ≠ '@' ∧ c ≠ '*' ∧ c ≠ '[' := List.all_iff_forall_prop.1 (by decide)
  obtain ⟨isSymbol, slash, minus, plus, point, colon, at_, star, bracket⟩ := others c mem
  have here : IsSymbolAt previous c cs :=
    ⟨startsComment_of_ne slash minus, by simp [plus, minus], by simp [point], by simp [colon, at_],
      by simp [star], by simp [bracket]⟩
  refine symbol [c] isSymbol here ?_ later
  simp only [Lexeme.Symbol.read, known]
  rfl

theorem openParen (later : Scans d (some openToken) cs ts) :
    Scans d previous ('(' :: cs) (openToken :: ts) :=
  punctuation (by decide) rfl later

theorem closeParen (later : Scans d (some closeToken) cs ts) :
    Scans d previous (')' :: cs) (closeToken :: ts) :=
  punctuation (by decide) rfl later

theorem comma (later : Scans d (some commaToken) cs ts) :
    Scans d previous (',' :: cs) (commaToken :: ts) :=
  punctuation (by decide) rfl later

theorem closeBracket (later : Scans d (some ⟨.closeBracket, "]"⟩) cs ts) :
    Scans d previous (']' :: cs) (⟨.closeBracket, "]"⟩ :: ts) :=
  punctuation (by decide) rfl later

/-- A bracket after `array` begins no name. -/
theorem openBracket (later : Scans d (some ⟨.openBracket, "["⟩) cs ts) :
    Scans d (some (keywordToken "array")) ('[' :: cs) (⟨.openBracket, "["⟩ :: ts) := by
  have here : IsSymbolAt (some (keywordToken "array")) '[' cs :=
    ⟨startsComment_of_ne (by decide) (by decide), by simp, by simp, by simp, by simp, by decide⟩
  exact symbol ['['] (by decide) here rfl later

theorem dot (next : cs.head?.any Char.isDigit = false) (later : Scans d (some ⟨.dot, "."⟩) cs ts) :
    Scans d previous ('.' :: cs) (⟨.dot, "."⟩ :: ts) := by
  have here : IsSymbolAt previous '.' cs :=
    ⟨startsComment_of_ne (by decide) (by decide), by simp, fun _ => next, by simp, by simp,
      by simp⟩
  exact symbol ['.'] (by decide) here rfl later

theorem colons (later : Scans d (some ⟨.operator, "::"⟩) cs ts) :
    Scans d previous (':' :: ':' :: cs) (⟨.operator, "::"⟩ :: ts) := by
  have here : IsSymbolAt previous ':' (':' :: cs) :=
    ⟨startsComment_of_ne (by decide) (by decide), by simp, by simp, fun _ => rfl, by simp,
      by simp⟩
  exact symbol [':', ':'] (by decide) here rfl later

/-- A star stands for all columns where it may. -/
theorem wildcard (allowed : previous.all Token.precedesWildcard = true)
    (later : Scans d (some (wordToken wildcardName)) cs ts) :
    Scans d previous ('*' :: cs) (wordToken wildcardName :: ts) := by
  have literal (operand : Bool) : Lexeme.Literal.read? operand ('*' :: cs) = none := by
    have specifier : Lexeme.Literal.specifier? ('*' :: cs) = none :=
      specifier?_none_of_first (by decide) cs
    cases operand <;>
      simp [Lexeme.Literal.read?, specifier, Lexeme.Literal.startsNumber,
        Lexeme.Literal.readSigned?]
  have parameter (ordinal : Nat) : Lexeme.Name.readParameter? ordinal ('*' :: cs) = none := by
    simp [Lexeme.Name.readParameter?]
  have name (bracket : Bool) : Lexeme.Name.read? true bracket ('*' :: cs) =
      some (.ok ⟨.identifier, wildcardName, ['*'], cs⟩) := by
    simp [Lexeme.Name.read?, Piece.verbatim]
    rfl
  refine Scans.piece ['*'] (by decide) (startsComment_of_ne (by decide) (by decide))
    (fun ordinal => ?_) (fun same => Kind.noConfusion same) later
  rw [Piece.read_name (literal _) (parameter ordinal) (allowed ▸ name _)]
  rfl

/-- An operator between operands stands between blanks. -/
theorem operator {operator : String} {power : Nat} (mem : (operator, power) ∈ Power.symbols)
    (closes : previous.any Token.closes = true)
    (later : Scans d (some ⟨.operator, operator⟩) (' ' :: cs) ts) :
    Scans d previous (operator.toList ++ ' ' :: cs) (⟨.operator, operator⟩ :: ts) := by
  obtain ⟨t, rfl, closed⟩ := (Option.any_eq_true ..).1 closes
  simp only [Token.closes, Bool.and_eq_true, Bool.not_eq_true'] at closed
  have here {c : Char} {rest : List Char} (comment : startsComment (c :: rest) = false)
      (point : c ≠ '.') (mark : c = ':' ∨ c = '@' → rest.head?.any Text.isWordChar = false)
      (bracket : c ≠ '[') : IsSymbolAt (some t) c rest :=
    ⟨comment, fun _ operand => by simp [closed.1] at operand, fun same => absurd same point, mark,
      fun _ => by simp [closed.2], fun same => absurd same bracket⟩
  simp only [Power.symbols, List.mem_cons, Prod.mk.injEq, List.not_mem_nil, or_false] at mem
  rcases mem with ⟨rfl, _⟩ | ⟨rfl, _⟩ | ⟨rfl, _⟩ | ⟨rfl, _⟩ | ⟨rfl, _⟩ | ⟨rfl, _⟩ | ⟨rfl, _⟩ |
    ⟨rfl, _⟩ | ⟨rfl, _⟩ | ⟨rfl, _⟩ | ⟨rfl, _⟩ | ⟨rfl, _⟩ | ⟨rfl, _⟩ | ⟨rfl, _⟩ | ⟨rfl, _⟩ |
    ⟨rfl, _⟩ | ⟨rfl, _⟩ | ⟨rfl, _⟩ | ⟨rfl, _⟩ | ⟨rfl, _⟩ | ⟨rfl, _⟩ | ⟨rfl, _⟩ | ⟨rfl, _⟩ |
    ⟨rfl, _⟩ | ⟨rfl, _⟩ | ⟨rfl, _⟩ | ⟨rfl, _⟩ | ⟨rfl, _⟩ | ⟨rfl, _⟩ | ⟨rfl, _⟩
  all_goals
    exact symbol _ (by decide) (here rfl (by decide) (fun _ => rfl) (by decide)) rfl later

/-- What would make another symbol or a comment of a sign in front of it. -/
def signTails : List Char := ['-', '>', '*']

theorem compounds_chars : Lexeme.Symbol.compounds.map String.toList =
    [['-', '>', '>'], ['#', '>', '>'], ['!', '~', '*'], [':', ':'], ['|', '|'], ['<', '='],
      ['>', '='], ['<', '>'], ['!', '='], ['-', '>'], ['#', '>'], ['@', '>'], ['<', '@'],
      ['<', '<'], ['>', '>'], ['!', '~'], ['~', '*']] := by
  decide

theorem compound?_sign (mem : c ∈ ['-', '+', '~']) (next : ∀ d ∈ cs.head?, d ∉ signTails) :
    Lexeme.Symbol.compound? (c :: cs) = none := by
  simp only [List.mem_cons, List.not_mem_nil, or_false] at mem
  rw [Lexeme.Symbol.compound?, compounds_chars]
  cases cs with
  | nil => rcases mem with rfl | rfl | rfl <;> rfl
  | cons d cs =>
    have tail := next d rfl
    simp only [signTails, List.mem_cons, List.not_mem_nil, or_false, not_or] at tail
    have greater : ('>' == d) = false := by simpa using Ne.symm tail.2.1
    have star : ('*' == d) = false := by simpa using Ne.symm tail.2.2
    rcases mem with rfl | rfl | rfl <;>
      simp [List.find?, List.isPrefixOf, greater, star]

/-- An operator in front of its operand. -/
theorem sign {operator : String} (mem : operator ∈ Power.signs)
    (number : operator ∈ ["-", "+"] → previous.all Token.expectsOperand = true →
      Lexeme.Literal.startsNumber (cs.dropWhile Text.isBlank) = false)
    (next : ∀ d ∈ cs.head?, d ∉ signTails) (later : Scans d (some ⟨.operator, operator⟩) cs ts) :
    Scans d previous (operator.toList ++ cs) (⟨.operator, operator⟩ :: ts) := by
  have one : ∀ operator ∈ Power.signs, ∃ c, operator.toList = [c] ∧ c ∈ ['-', '+', '~'] ∧
      operator = String.ofList [c] ∧ (c = '+' ∨ c = '-' → operator ∈ ["-", "+"]) := by
    intro operator mem
    simp only [Power.signs, List.mem_cons, List.not_mem_nil, or_false] at mem
    rcases mem with rfl | rfl | rfl
    · exact ⟨'-', rfl, by decide, rfl, by simp⟩
    · exact ⟨'+', rfl, by decide, rfl, by simp⟩
    · exact ⟨'~', rfl, by decide, rfl, by simp⟩
  obtain ⟨c, chars, kind, text, signed⟩ := one operator mem
  have facts : ∀ c ∈ ['-', '+', '~'], c ∈ symbolChars ∧ c ≠ '/' ∧ c ≠ '.' ∧ c ≠ ':' ∧ c ≠ '@' ∧
      c ≠ '*' ∧ c ≠ '[' ∧ Lexeme.Symbol.punctuation? c = none ∧ Text.isOperatorChar c = true := List.all_iff_forall_prop.1 (by decide)
  obtain ⟨isSymbol, slash, point, colon, at_, star, bracket, punctuation, single⟩ := facts c kind
  have comment : startsComment (c :: cs) = false := by
    by_cases minus : c = '-'
    · cases cs with
      | nil => rw [minus]; rfl
      | cons d cs =>
        have tail := next d rfl
        simp only [signTails, List.mem_cons, List.not_mem_nil, or_false, not_or] at tail
        simp [minus, startsComment, Comment.startsBlock, List.isPrefixOf, Ne.symm tail.1]
    · exact startsComment_of_ne slash minus
  have here : IsSymbolAt previous c cs :=
    ⟨comment, fun mark => number (signed mark), by simp [point], by simp [colon, at_], by simp [star],
      by simp [bracket]⟩
  have read : Lexeme.Symbol.read c cs = .ok ⟨.operator, operator, [c], cs⟩ := by
    simp [Lexeme.Symbol.read, punctuation, compound?_sign kind next, single, Piece.verbatim, text]
  rw [chars]
  exact symbol [c] isSymbol here read later

end Scans

end SqlQuery
