import SqlQuery.Dialect.Preset
import SqlQuery.Proofs.Scanning.Word

/-!
Names are scanned back, in quotes where the dialect writes them so. A name in square brackets must not
stand right after `array`, nor in front of another closing bracket.
-/

namespace SqlQuery

namespace Dialect

/-- The marks around a quoted name that can be read back. -/
def quoteMarks : List (Char × Char) := [('\x22', '\x22'), ('\x60', '\x60'), ('[', ']')]

/-- The marks in front of a parameter that can be read back. -/
def parameterMarks : List Char := [':', '$', '@']

def opener (d : Dialect) : Char := d.quotes.opening.toList.headD ' '

def closer (d : Dialect) : Char := d.quotes.closing.toList.headD ' '

def marker (d : Dialect) : Char := d.parameterSymbol.toList.headD ' '

/-- What the dialect writes around names and in front of parameters can be read back. -/
class Readable (d : Dialect) : Prop where
  single : d.quotes = ⟨String.ofList [d.opener], String.ofList [d.closer]⟩ ∧
    d.parameterSymbol = String.ofList [d.marker]
  quotes : (d.opener, d.closer) ∈ quoteMarks
  marker : d.marker ∈ parameterMarks

instance : Readable standard := ⟨by decide, by decide, by decide⟩

instance (p : Preset) : Readable p.dialect := by
  cases p <;> exact ⟨by decide, by decide, by decide⟩

instance (d : Dialect) [h : Readable d] (policy : QuotePolicy) :
    Readable { d with quotePolicy := policy } :=
  ⟨h.single, h.quotes, h.marker⟩

instance (d : Dialect) [Readable d] : Readable d.quoteAll :=
  inferInstanceAs (Readable { d with quotePolicy := .always })

end Dialect

/-- The letters that a specifier may begin with. -/
def specifierLetters : List Char := ['u', 'e', 'x', 'b']

theorem specifier?_none_of_first {c : Char} (h : c.toLower ∉ specifierLetters) (cs : List Char) :
    Lexeme.Literal.specifier? (c :: cs) = none := by
  simp only [specifierLetters, List.mem_cons, List.not_mem_nil, or_false, not_or] at h
  obtain ⟨u, e, x, b⟩ := h
  simp [Lexeme.Literal.specifier?, Lexeme.Literal.specifiers, Text.lowerChars, u, e, x, b]

def delimiters : List Char :=
  [' ', '\t', '\n', '\r', '\x0b', '\x0c'] ++ Text.operatorChars ++ Text.punctuationChars

theorem mem_delimiters {c : Char} (h : Text.isDelimiter c = true) : c ∈ delimiters := by
  simp only [Text.isDelimiter, Text.isBlank, Bool.or_eq_true, beq_iff_eq, Text.isOperatorChar,
    List.contains_eq_mem, decide_eq_true_eq] at h
  simp only [delimiters, List.mem_append, List.mem_cons, List.not_mem_nil, or_false]
  rcases h with (blank | operator) | punctuation
  · exact .inl (.inl (by simpa [or_assoc] using blank))
  · exact .inl (.inr operator)
  · exact .inr punctuation

/-- No delimiter is a letter or a digit, an underscore or a dollar sign. -/
theorem isWordChar_of {c : Char} (h : (Text.isAlphanum c || c == '_' || c == '$') = true) :
    Text.isWordChar c = true := by
  have apart : ∀ d ∈ delimiters, (Text.isAlphanum d || d == '_' || d == '$') = false := List.all_iff_forall_prop.1 (by decide)
  cases delimiter : Text.isDelimiter c with
  | false => simp [Text.isWordChar, delimiter]
  | true => rw [apart c (mem_delimiters delimiter)] at h; cases h

theorem not_digit_of_alpha {c : Char} (h : c.isAlpha = true) : c.isDigit = false := by
  delta Char.isAlpha Char.isUpper Char.isLower at h
  simp only [Char.isDigit, Bool.or_eq_true, Bool.and_eq_true, decide_eq_true_eq, Bool.and_eq_false_iff, decide_eq_false_iff_not,
    UInt32.le_iff_toNat_le] at h ⊢
  simp at h ⊢
  omega

theorem isWordText_of_bare {name : String} (bare : isBareWord name = true) :
    IsWordText name.toList := by
  unfold isBareWord at bare
  split at bare
  · cases bare
  rename_i c cs chars
  simp only [Bool.and_eq_true, List.all_eq_true] at bare
  obtain ⟨first, others⟩ := bare
  have start : (Text.isAlphanum c || c == '_' || c == '$') = true := by
    simp only [Text.isAlphanum, Bool.or_eq_true] at first ⊢
    exact .inl (first.imp .inl id)
  rw [chars]
  refine ⟨List.forall_mem_cons.2 ⟨isWordChar_of start, fun d mem => isWordChar_of (others d mem)⟩,
    c, cs, rfl, ?_⟩
  simp only [Bool.or_eq_true, beq_iff_eq] at first
  rcases first with alpha | rfl
  · refine ⟨not_digit_of_alpha alpha, ?_⟩
    rintro rfl
    revert alpha
    decide
  · decide

theorem quoted?_doubled {close : Char} {cs : List Char} (next : cs.head? ≠ some close)
    (name : List Char) :
    Lexeme.Name.quoted? close (Text.doubled close name ++ close :: cs) = some (name, cs) := by
  induction name with
  | nil =>
    cases cs with
    | nil => simp [Text.doubled, Lexeme.Name.quoted?]
    | cons d cs =>
      have other : d ≠ close := by simpa using next
      simp [Text.doubled, Lexeme.Name.quoted?, other]
  | cons c name ih =>
    by_cases same : c = close
    · subst same
      rw [Text.doubled_cons_self]
      simp only [List.cons_append]
      rw [Lexeme.Name.quoted?]
      simp [ih]
    · obtain ⟨d, ds, tail⟩ : ∃ d ds, Text.doubled close name ++ close :: cs = d :: ds :=
        List.exists_cons_of_ne_nil (by simp)
      rw [tail] at ih
      rw [Text.doubled_cons_of_ne same, List.cons_append, tail, Lexeme.Name.quoted?]
      simp [same, ih]

/-- A mark of one character is doubled like that character. -/
theorem doubledMark_singleton (mark : Char) (cs : List Char) :
    Text.doubledMark [mark] cs = Text.doubled mark cs := by
  induction cs with
  | nil => simp [Text.doubledMark, Text.doubled]
  | cons c cs ih =>
    rw [Text.doubledMark]
    by_cases same : c = mark
    · subst same
      simp [List.isPrefixOf, ih, Text.doubled]
    · simp [List.isPrefixOf, same, Ne.symm same, ih, Text.doubled]

theorem Dialect.quote_eq (d : Dialect) [h : d.Readable] (name : String) :
    d.quote name = d.opener :: (Text.doubled d.closer name.toList ++ [d.closer]) := by
  rw [Dialect.quote, h.single.1]
  simp only [String.toList_ofList, doubledMark_singleton]
  rfl

/-- Phrases have several words. -/
theorem not_phrase {w : List Char} (word : IsWordText w) :
    Keyword.phrases.contains (String.ofList (Text.lowerChars w)) = false := by
  have spaced : ∀ phrase ∈ Keyword.phrases, ' ' ∈ phrase.toList := by decide
  rw [List.contains_eq_mem, decide_eq_false_iff_not]
  intro mem
  have space := spaced _ mem
  rw [String.toList_ofList, Text.lowerChars] at space
  obtain ⟨c, inside, same⟩ := List.mem_map.1 space
  obtain rfl := eq_of_toLower same (by decide)
  have plain := word.chars ' ' inside
  revert plain
  decide

/-- No bracket that comes next would belong to `array`. -/
def Clear (previous : Option Token) : Prop := previous.any (fun t => t.isCommand "array") = false

/-- What is written of the name ends with the mark that closes a name in quotes. -/
def Dialect.closes (d : Dialect) (name : String) : Bool :=
  (d.spellName name).getLast? == some d.closer

/-- What is written of a name comes last, and ends so. -/
def Mark.endsQuoted (d : Dialect) (ms : List Mark) : Bool :=
  match ms.getLast? with
  | some (.name text) => d.closes text
  | _ => false

/-- What may follow the name, in quotes or without. -/
def NameEnd (d : Dialect) (name : String) (cs : List Char) : Prop :=
  Boundary cs ∧ (d.closes name = true → cs.head? ≠ some d.closer)

theorem NameEnd.cons {d : Dialect} [h : d.Readable] {name : String} {c : Char}
    (mem : c ∈ boundaryChars) (other : c ≠ ']') (cs : List Char) : NameEnd d name (c :: cs) := by
  refine ⟨.cons mem cs, fun _ head => ?_⟩
  have apart : ∀ marks ∈ Dialect.quoteMarks, marks.2 ∉ boundaryChars ∨ marks.2 = ']' := by decide
  obtain rfl : c = d.closer := by simpa using head
  exact (apart _ h.quotes).elim (fun outside => outside mem) other

namespace Piece.Heads

variable {d : Dialect} [h : d.Readable] {previous : Option Token} {text : String} {cs : List Char}

theorem quoted (clear : Clear previous) (next : cs.head? ≠ some d.closer) :
    Heads previous ⟨.identifier, text, d.quote text, cs⟩ (d.quote text ++ cs) := by
  have facts : ∀ marks ∈ Dialect.quoteMarks, marks.1.toLower ∉ specifierLetters ∧
      marks.1.isDigit = false ∧ marks.1 ∉ ['\x27', '.', '+', '-', '?', ':', '$', '@', '*', '/'] ∧
      Text.isBlank marks.1 = false := by decide
  obtain ⟨letter, digit, others, blank⟩ := facts _ h.quotes
  simp only [List.mem_cons, List.not_mem_nil, or_false, not_or] at others
  obtain ⟨quote, point, plus, minus, question, colon, dollar, at_, star, slash⟩ := others
  have body : Lexeme.Name.quoted? d.closer (Text.doubled d.closer text.toList ++ d.closer :: cs) =
      some (text.toList, cs) := quoted?_doubled next text.toList
  have literal (operand : Bool) (rest : List Char) :
      Lexeme.Literal.read? operand (d.opener :: rest) = none := by
    have specifier := specifier?_none_of_first letter rest
    cases operand <;>
      simp [Lexeme.Literal.read?, specifier, Lexeme.Literal.startsNumber, quote, digit, point,
        Lexeme.Literal.readSigned?, plus, minus]
  have parameter (ordinal : Nat) (rest : List Char) :
      Lexeme.Name.readParameter? ordinal (d.opener :: rest) = none := by
    simp [Lexeme.Name.readParameter?, question, colon, dollar, at_]
  have opens : d.opener = d.closer ∧ (d.opener = '\x60' ∨ d.opener = '\x22') ∨
      d.opener = '[' ∧ d.closer = ']' := by
    have marks : ∀ marks ∈ Dialect.quoteMarks, marks.1 = marks.2 ∧
        (marks.1 = '\x60' ∨ marks.1 = '\x22') ∨ marks.1 = '[' ∧ marks.2 = ']' := by decide
    exact marks _ h.quotes
  have bracket : (!previous.any fun t => t.isCommand "array") = true := by
    rw [show previous.any (fun t => t.isCommand "array") = false from clear]
    rfl
  have name (wildcard : Bool) :
      Lexeme.Name.read? wildcard (!previous.any fun t => t.isCommand "array")
        (d.opener :: (Text.doubled d.closer text.toList ++ d.closer :: cs)) =
          some (.ok ⟨.identifier, text, d.quote text, cs⟩) := by
    rw [bracket, d.quote_eq]
    rcases opens with ⟨same, tick | double⟩ | ⟨opening, closing⟩
    · rw [← same, tick] at body
      simp [Lexeme.Name.read?, Lexeme.Name.readQuoted, ← same, tick, body]
    · rw [← same, double] at body
      simp [Lexeme.Name.read?, Lexeme.Name.readQuoted, ← same, double, body]
    · rw [closing] at body
      simp [Lexeme.Name.read?, Lexeme.Name.readQuoted, opening, closing, body]
  have split : d.quote text ++ cs =
      d.opener :: (Text.doubled d.closer text.toList ++ d.closer :: cs) := by simp [d.quote_eq]
  rw [split]
  exact .mk blank (startsComment_of_ne slash minus) fun ordinal =>
    Piece.read_name (literal _ _) (parameter _ _) (name _)

omit h in
theorem bare (word : IsWordText text.toList) (boundary : Boundary cs)
    (plain : Keyword.isComplete (Text.lower text) = false)
    (alone : Lexeme.Name.longerKeyword? (Text.lower text) cs = none) :
    Heads previous ⟨.identifier, text, text.toList, cs⟩ (text.toList ++ cs) := by
  have front := word.heads boundary previous
  rwa [Lexeme.Name.readWord_name word boundary plain alone, String.ofList_toList] at front

/-- A name is read as itself in front of every boundary that cannot be taken for its end. -/
theorem name (named : text ≠ wildcardName) (clear : Clear previous) (ending : NameEnd d text cs) :
    Heads previous ⟨.identifier, text, d.spellName text, cs⟩ (d.spellName text ++ cs) := by
  have other : (text == wildcardName) = false := by simpa using named
  have apart (same : d.spellName text = d.quote text) : cs.head? ≠ some d.closer := by
    refine ending.2 ?_
    rw [Dialect.closes, same, d.quote_eq]
    simp [List.getLast?_cons]
  cases policy : d.quotePolicy with
  | always =>
    have spelled : d.spellName text = d.quote text := by simp [Dialect.spellName, other, policy]
    rw [spelled]
    exact quoted clear (apart spelled)
  | whenNeeded =>
    by_cases needs : needsQuotes text = true
    · have spelled : d.spellName text = d.quote text := by
        simp [Dialect.spellName, other, policy, needs]
      rw [spelled]
      exact quoted clear (apart spelled)
    · have spelled : d.spellName text = text.toList := by
        simp [Dialect.spellName, other, policy, needs]
      rw [spelled]
      simp only [needsQuotes, Bool.or_eq_true, Bool.not_eq_true', not_or, Bool.not_eq_true,
        Bool.not_eq_false] at needs
      exact bare (isWordText_of_bare needs.1.1) ending.1 needs.1.2
        (Lexeme.Name.longerKeyword?_alone needs.2)

/-- The name of a call stands in front of its parenthesis. -/
theorem call (clear : Clear previous) :
    Heads previous ⟨.identifier, text, d.spellCall text, '(' :: cs⟩ (d.spellCall text ++ '(' :: cs) := by
  have next : ('(' :: cs).head? ≠ some d.closer := by
    have apart : ∀ marks ∈ Dialect.quoteMarks, marks.2 ≠ '(' := by decide
    exact fun head => apart _ h.quotes (Option.some.inj head).symm
  unfold Dialect.spellCall
  split
  case isTrue => exact quoted clear next
  case isFalse needs =>
    simp only [callNeedsQuotes, Bool.or_eq_true, Bool.not_eq_true', not_or, Bool.not_eq_true,
      Bool.not_eq_false] at needs
    have word := isWordText_of_bare needs.1
    have plain : Keyword.isComplete (Text.lower text) = false := by
      rw [Keyword.isComplete, needs.2, Bool.false_or]
      exact not_phrase word
    have alone : Lexeme.Name.longerKeyword? (Text.lower text) ('(' :: cs) = none :=
      Lexeme.Name.longerKeyword?_mark (by decide) (by decide) cs
    exact bare word (.cons (by decide) cs) plain alone

end Piece.Heads

end SqlQuery
