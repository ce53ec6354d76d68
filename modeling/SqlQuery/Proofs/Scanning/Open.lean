import SqlQuery.Proofs.Scanning.Legible
import SqlQuery.Proofs.Scanning.Settle

/-!
How the text of a value begins: with which characters, and with which words. A keyword in front that
could go on with another word does not go on with the first word of a value.
-/

namespace SqlQuery

open Lexeme.Name (firstWord)

/-- The reserved words that a value begins with. -/
def valueWords : List String :=
  ["not", "null", "true", "false", "case", "cast", "array", "exists"]

/-- The value is written at the front. -/
structure Expr.OpensAs (e : Expr) (cs : List Char) : Prop where
  start : ∃ c rest, cs = c :: rest ∧ Text.isBlank c = false ∧ c ∉ ['>', '.'] ∧
    (c = '*' → e.leadsStar = true) ∧ (c.isDigit = true → e.leadsUnsigned = true)
  word : Keyword.isReserved (firstWord cs) = true →
    firstWord cs ∈ valueWords ∧ (firstWord cs = "not" → e.leadsNot = true)

/-- What a value may begin with, other than a word, a number or a star. -/
def openChars : List Char :=
  ['\x27', '\x22', '\x60', '[', '(', ':', '@', '?', '-', '+', '~']

namespace Expr.OpensAs

variable {e left : Expr} {d : Dialect} {cs : List Char} {c : Char} {w : List Char}

/-- What comes after a value changes nothing about its beginning. -/
theorem extend (h : left.OpensAs cs) (first : e.first = left.first) : e.OpensAs cs := by
  have star : e.leadsStar = left.leadsStar := by rw [leadsStar, leadsStar, first]
  have unsigned : e.leadsUnsigned = left.leadsUnsigned := by
    rw [leadsUnsigned, leadsUnsigned, first]
  have negated : e.leadsNot = left.leadsNot := by rw [leadsNot, leadsNot, first]
  obtain ⟨start, word⟩ := h
  rw [← star, ← unsigned] at start
  rw [← negated] at word
  exact ⟨start, word⟩

theorem of_char (mem : c ∈ openChars) (cs : List Char) : e.OpensAs (c :: cs) := by
  have facts : ∀ c ∈ openChars, Text.isBlank c = false ∧ c ∉ ['>', '.'] ∧ c ≠ '*' ∧
      c.isDigit = false ∧ Text.isWordChar c = false := List.all_iff_forall_prop.1 (by decide)
  obtain ⟨blank, other, star, digit, delimiter⟩ := facts c mem
  refine ⟨⟨c, cs, rfl, blank, other, fun same => absurd same star, fun same => ?_⟩, ?_⟩
  · rw [digit] at same
    cases same
  · have empty : firstWord (c :: cs) = "" := by simp [firstWord, Lexeme.Name.word, delimiter,
      Text.lowerChars]
    rw [empty]
    intro reserved
    exact absurd reserved (by decide)

theorem firstWord_append (chars : ∀ c ∈ w, Text.isWordChar c = true) (boundary : Boundary cs) :
    firstWord (w ++ cs) = String.ofList (Text.lowerChars w) := by
  rw [firstWord, (Lexeme.Name.word_of_boundary chars boundary).1]

theorem of_word (isWord : IsWordText w) (boundary : Boundary cs)
    (plain : Keyword.isReserved (String.ofList (Text.lowerChars w)) = true →
      String.ofList (Text.lowerChars w) ∈ valueWords ∧
        (String.ofList (Text.lowerChars w) = "not" → e.leadsNot = true)) :
    e.OpensAs (w ++ cs) := by
  have first := firstWord_append isWord.chars boundary
  obtain ⟨c, ws, rfl, digit, _⟩ := isWord.start
  have isChar := isWord.chars c List.mem_cons_self
  have apart : ∀ d ∈ ['>', '.'], Text.isWordChar d = false := List.all_iff_forall_prop.1 (by decide)
  have star : c ≠ '*' := IsWordText.ne_of_wordChar isChar (by decide)
  have blank : Text.isBlank c = false := by
    simp only [Text.isWordChar, Text.isDelimiter, Bool.not_eq_true', Bool.or_eq_false_iff] at isChar
    exact isChar.1.1
  refine ⟨⟨c, ws ++ cs, rfl, blank, fun mem => ?_, fun same => absurd same star, fun same => ?_⟩, ?_⟩
  · rw [apart c mem] at isChar
    cases isChar
  · rw [digit] at same
    cases same
  · rwa [first]

/-- Values that begin with a keyword of their own. -/
theorem of_keyword (text : String) (mem : text ∈ valueWords)
    (negation : text = "not" → e.leadsNot = true) (boundary : Boundary cs) :
    e.OpensAs (text.toList ++ cs) := by
  have facts : ∀ text ∈ valueWords, isWordText text.toList = true ∧ Text.lower text = text := by
    decide
  obtain ⟨isWord, lower⟩ := facts text mem
  have same : String.ofList (Text.lowerChars text.toList) = text := lower
  refine of_word (isWordText_of isWord) boundary fun _ => ?_
  rw [same]
  exact ⟨mem, negation⟩

theorem of_quote [h : d.Readable] (name : String) : e.OpensAs (d.quote name ++ cs) := by
  have opens : ∀ marks ∈ Dialect.quoteMarks, marks.1 ∈ openChars := by decide
  rw [d.quote_eq]
  exact of_char (opens _ h.quotes) _

theorem of_name [d.Readable] {name : String} (named : name ≠ wildcardName)
    (boundary : Boundary cs) : e.OpensAs (d.spellName name ++ cs) := by
  have other : (name == wildcardName) = false := by simpa using named
  simp only [Dialect.spellName, other, Bool.false_eq_true, if_false]
  split
  · exact of_quote name
  split
  case isTrue => exact of_quote name
  case isFalse needs =>
    simp only [needsQuotes, Keyword.isComplete, Bool.or_eq_true, Bool.not_eq_true', not_or,
      Bool.not_eq_true, Bool.not_eq_false] at needs
    refine of_word (isWordText_of_bare needs.1.1) boundary fun reserved => ?_
    exact absurd reserved (by simpa [Text.lower] using needs.1.2.1)

theorem of_call [d.Readable] (name : String) : e.OpensAs (d.spellCall name ++ '(' :: cs) := by
  unfold Dialect.spellCall
  split
  case isTrue => exact of_quote name
  case isFalse needs =>
    simp only [callNeedsQuotes, Bool.or_eq_true, Bool.not_eq_true', not_or, Bool.not_eq_true,
      Bool.not_eq_false] at needs
    refine of_word (isWordText_of_bare needs.1) (.cons (by decide) cs) fun reserved => ?_
    exact absurd reserved (by simpa [Text.lower] using needs.2)

/-- No reserved word begins with the character. -/
theorem not_reserved (letters : ∀ text ∈ Keyword.reserved, text.toList.head? ≠ some c)
    (isChar : Text.isWordChar c = true) (lower : c.toLower = c) (cs : List Char) :
    Keyword.isReserved (firstWord (c :: cs)) = false := by
  have chars : (firstWord (c :: cs)).toList.head? = some c := by
    simp [firstWord, Lexeme.Name.word, isChar, Text.lowerChars, lower]
  cases reserved : Keyword.isReserved (firstWord (c :: cs)) with
  | false => rfl
  | true => exact absurd chars (letters _ (by simpa [Keyword.isReserved] using reserved))

theorem of_parameter [h : d.Readable] (name : String) : e.OpensAs (d.spellParameter name ++ cs) := by
  unfold Dialect.spellParameter
  split
  · have marks : ∀ c ∈ Dialect.parameterMarks, c ∈ openChars ∨ c = '$' := List.all_iff_forall_prop.1 (by decide)
    have letters : ∀ text ∈ Keyword.reserved, text.toList.head? ≠ some '$' := by decide
    rw [h.single.2, String.toList_ofList]
    rcases marks _ h.marker with mem | dollar
    · exact of_char mem _
    · have plain := not_reserved letters (by decide) (by decide) (name.toList ++ cs)
      rw [dollar]
      refine ⟨⟨'$', name.toList ++ cs, rfl, by decide, by decide, fun star => ?_, fun digit => ?_⟩,
        fun reserved => ?_⟩
      · exact absurd star (by decide)
      · exact absurd digit (by decide)
      · exact absurd (plain.symm.trans reserved) (by decide)
  · exact of_char (by decide) _

theorem of_wildcard (star : e.leadsStar = true) (cs : List Char) : e.OpensAs ('*' :: cs) := by
  have delimiter : Text.isWordChar '*' = false := by decide
  refine ⟨⟨'*', cs, rfl, by decide, by decide, fun _ => star, fun digit => ?_⟩, ?_⟩
  · exact absurd digit (by decide)
  · have empty : firstWord ('*' :: cs) = "" := by
      simp [firstWord, Lexeme.Name.word, delimiter, Text.lowerChars]
    rw [empty]
    intro reserved
    exact absurd reserved (by decide)

theorem of_digits {digits : List Char} (number : IsNumberText digits)
    (unsigned : e.leadsUnsigned = true) (cs : List Char) : e.OpensAs (digits ++ cs) := by
  obtain ⟨c, rest, rfl, digit⟩ := number.start
  have plain : Keyword.isReserved (firstWord (c :: (rest ++ cs))) = false := by
    have letters : ∀ text ∈ Keyword.reserved, text.toList.head?.any Char.isDigit = false := by
      decide
    refine not_reserved (fun text mem head => ?_) (isWordChar_of (by simp [Text.isAlphanum, digit]))
      (toLower_digit digit) _
    have other := letters text mem
    simp [head, digit] at other
  refine ⟨⟨c, rest ++ cs, rfl, not_blank_of_digit digit, fun mem => ?_, fun star => ?_,
    fun _ => unsigned⟩, fun reserved => ?_⟩
  · have apart : ∀ d ∈ ['>', '.'], d.isDigit = false := List.all_iff_forall_prop.1 (by decide)
    rw [apart c mem] at digit
    cases digit
  · rw [star] at digit
    exact absurd digit (by decide)
  · exact absurd (plain.symm.trans reserved) (by decide)

end Expr.OpensAs

/-- What begins with a digit begins with a number. -/
theorem Expr.OpensAs.not_digit {e : Expr} {cs : List Char} (h : e.OpensAs cs)
    (other : e.leadsUnsigned = false) : cs.head?.any Char.isDigit = false := by
  obtain ⟨⟨c, rest, rfl, _, _, _, digit⟩, _⟩ := h
  rw [other] at digit
  simpa using digit

/-- The keywords that are one by themselves and may go on with another word. -/
def openKeywords : List String := ["is", "not", "distinct", "union", "except", "intersect"]

theorem spaced_toList (keyword word : String) (more : List Char) :
    (keyword ++ " " ++ word).toList ++ more = keyword.toList ++ [' '] ++ (word.toList ++ more) := by
  simp

/-- Only reserved words go on with a keyword, and of those that a value begins with only `not`. -/
theorem isComplete_apart {keyword word : String} (mem : keyword ∈ openKeywords)
    (plain : Keyword.isReserved word = true → word ∈ valueWords ∧ (word = "not" → keyword ≠ "is")) :
    Keyword.isComplete (keyword ++ " " ++ word) = false := by
  have words : ∀ keyword ∈ openKeywords,
      ∀ letters ∈ Keyword.reservedLetters ++ Keyword.phraseLetters,
        (keyword.toList ++ [' ']).isPrefixOf letters = true →
          let word := String.ofList (letters.drop (keyword.toList ++ [' ']).length)
          Keyword.isReserved word = true ∧ (word ∈ valueWords → word = "not" ∧ keyword = "is") := by
    decide +kernel
  have split := spaced_toList keyword word []
  rw [List.append_nil, List.append_nil] at split
  cases complete : Keyword.isComplete (keyword ++ " " ++ word) with
  | false => rfl
  | true =>
    obtain ⟨letters, known, same⟩ := Keyword.isComplete_letters complete
    rw [same, String.toList_ofList] at split
    have starts : (keyword.toList ++ [' ']).isPrefixOf letters = true := by
      rw [split]
      exact List.isPrefixOf_iff_prefix.2 (List.prefix_append ..)
    obtain ⟨reserved, only⟩ := words keyword mem letters known starts
    rw [split, List.drop_left, String.ofList_toList] at reserved only
    obtain ⟨inside, other⟩ := plain reserved
    obtain ⟨isNot, isIs⟩ := only inside
    exact absurd isIs (other isNot)

/-- No phrase has a third word after these. -/
theorem isExtendable_apart {keyword : String} (mem : keyword ∈ openKeywords) (word : String) :
    Keyword.isExtendable (keyword ++ " " ++ word) = false := by
  have single : ∀ keyword ∈ openKeywords, ∀ letters ∈ Keyword.phraseLetters,
      (keyword.toList ++ [' ']).isPrefixOf letters = true →
        ' ' ∉ letters.drop (keyword.toList ++ [' ']).length := by
    decide +kernel
  cases extendable : Keyword.isExtendable (keyword ++ " " ++ word) with
  | false => rfl
  | true =>
    rw [Keyword.isExtendable_eq] at extendable
    obtain ⟨phrase, known, starts⟩ := List.any_eq_true.1 extendable
    obtain ⟨more, split⟩ := List.isPrefixOf_iff_prefix.1 starts
    rw [spaced_toList, List.append_assoc] at split
    have first : (keyword.toList ++ [' ']).isPrefixOf phrase = true := by
      rw [← split]
      exact List.isPrefixOf_iff_prefix.2 (List.prefix_append ..)
    have blank := single keyword mem phrase known first
    rw [← split, List.drop_left] at blank
    simp at blank

/-- The keyword does not go on with the first word of the value. -/
theorem Expr.OpensAs.alone {e : Expr} {cs : List Char} {keyword : String} (h : e.OpensAs cs)
    (mem : keyword ∈ openKeywords) (negated : keyword = "is" → e.leadsNot = false) :
    Lexeme.Name.longerKeyword? keyword (' ' :: cs) = none := by
  obtain ⟨⟨c, rest, rfl, blank, _⟩, word⟩ := h
  refine Lexeme.Name.longerKeyword?_apart blank ?_
  rintro _ rfl
  refine ⟨isComplete_apart mem fun reserved => ?_, isExtendable_apart mem _⟩
  obtain ⟨inside, leads⟩ := word reserved
  refine ⟨inside, fun isNot isIs => ?_⟩
  rw [negated isIs] at leads
  cases leads isNot

end SqlQuery
