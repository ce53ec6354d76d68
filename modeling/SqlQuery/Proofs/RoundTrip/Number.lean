import SqlQuery.Grammar.Value
import SqlQuery.Proofs.Scanning.Literal
import SqlQuery.Proofs.Spacing.Scan

/-!
The text of a number that was read is read again as the same number, in front of all that may stand
after one.
-/

namespace SqlQuery

/-- The text of a number, with the minus that is kept with it. -/
def IsSignedText (text : String) : Prop :=
  ∃ digits, IsNumberText digits ∧ (text.toList = digits ∨ text.toList = '-' :: digits)

theorem NumberEnd.any_eq_false {cs : List Char} (ended : NumberEnd cs) {p : Char → Bool}
    (apart : (boundaryChars.all fun c => c == '.' || !p c) = true) : cs.head?.any p = false := by
  cases cs with
  | nil => rfl
  | cons c cs =>
    have other : c ≠ '.' := fun point => ended.2 (congrArg some point)
    simpa [other] using List.all_eq_true.1 apart c (ended.1 c rfl)

namespace Lexeme.Literal

section Endings

variable {ending : List Char} {p : Char → Bool}

/-- The reader takes of a longer text what it takes of the text, and leaves what was added. -/
def EndsBefore (ending : List Char) (read : List Char → List Char × List Char) : Prop :=
  ∀ cs, read (cs ++ ending) = ((read cs).1, (read cs).2 ++ ending)

theorem head?_any_append (ended : ending.head?.any p = false) (cs : List Char) :
    (cs ++ ending).head?.any p = cs.head?.any p := by
  cases cs with
  | nil => exact ended
  | cons c cs => rfl

theorem EndsBefore.run (ended : ending.head?.any p = false) : EndsBefore ending (run p) := by
  intro cs
  have taken : ∀ c ∈ (Literal.run p cs).1, p c = true := fun c mem => List.mem_takeWhile_imp mem
  have left : ((Literal.run p cs).2 ++ ending).head?.any p = false :=
    (head?_any_append ended _).trans (head?_dropWhile_any p cs)
  have whole := run_append_of taken left
  rwa [← List.append_assoc, run_append] at whole

end Endings

theorem radixDigit?_ended {letter : Char} {digit : Char → Bool}
    (known : radixDigit? letter = some digit) :
    (boundaryChars.all fun c => c == '.' || !digit c) = true := by
  unfold radixDigit? at known
  split at known
  · cases known
    decide
  split at known
  · cases known
    decide
  split at known
  · cases known
    decide
  · cases known

theorem radix?_none_of_first {cs : List Char} (other : cs.head? ≠ some '0') : radix? cs = none := by
  unfold radix?
  split
  · exact absurd rfl other
  · rfl

section Numbers

variable {ending : List Char} (ended : NumberEnd ending)

include ended

theorem digits_ends : EndsBefore ending (run Char.isDigit) := .run (ended.any_eq_false (by decide))

theorem fraction_ends : EndsBefore ending fraction := by
  have other (cs : List Char) (point : cs.head? ≠ some '.') : fraction cs = ([], cs) := by
    unfold fraction
    split
    · exact absurd rfl point
    · rfl
  intro cs
  cases cs with
  | nil => exact other ending ended.2
  | cons c cs =>
    by_cases point : c = '.'
    · subst point
      have second : ((cs ++ ending).head? == some '.') = (cs.head? == some '.') := by
        cases cs with
        | nil => exact beq_eq_false_iff_ne.2 ended.2
        | cons c cs => rfl
      simp only [List.cons_append, fraction, second, digits_ends ended cs]
      split <;> rfl
    · rw [other (c :: cs) (by simpa using point), List.cons_append, other _ (by simpa using point)]

theorem sign_ends : EndsBefore ending sign := by
  intro cs
  cases cs with
  | nil =>
    have plain := ended.any_eq_false (p := fun c => c == '+' || c == '-') (by decide)
    cases ending with
    | nil => rfl
    | cons c ending => exact if_neg (by simpa using plain)
  | cons c cs =>
    simp only [List.cons_append, sign]
    split <;> rfl

theorem exponent_ends : EndsBefore ending exponent := by
  intro cs
  cases cs with
  | nil =>
    have plain := ended.any_eq_false (p := fun c => c == 'e' || c == 'E') (by decide)
    cases ending with
    | nil => rfl
    | cons c ending =>
      have plain : (c == 'e' || c == 'E') = false := plain
      simp [exponent, plain]
  | cons e cs =>
    have first := head?_any_append (p := Char.isDigit) (ended.any_eq_false (by decide)) (sign cs).2
    simp only [List.cons_append, exponent, sign_ends ended cs, first, digits_ends ended (sign cs).2]
    split <;> rfl

theorem decimal_ends : EndsBefore ending decimal := by
  intro cs
  simp only [decimal, digits_ends ended cs, fraction_ends ended (run Char.isDigit cs).2,
    exponent_ends ended (fraction (run Char.isDigit cs).2).2]

theorem radix?_ends (cs : List Char) :
    radix? (cs ++ ending) = (radix? cs).map fun taken => (taken.1, taken.2 ++ ending) := by
  match cs with
  | [] =>
    have first : ending.head? ≠ some '0' := ended.1.ne (by decide)
    exact radix?_none_of_first first
  | [c] =>
    have letters : ∀ c ∈ boundaryChars, c ∉ radixLetters := List.all_iff_forall_prop.1 (by decide)
    have second : radix? (c :: ending) = none := radix?_none fun d head => letters d (ended.1 d head)
    have alone : radix? [c] = none := radix?_none nofun
    rw [alone]
    exact second
  | c :: letter :: cs =>
    by_cases zero : c = '0'
    · subst zero
      simp only [List.cons_append, radix?]
      cases known : radixDigit? letter with
      | none => rfl
      | some digit =>
        have plain := ended.any_eq_false (radixDigit?_ended known)
        simp only [Option.bind_some, head?_any_append plain, EndsBefore.run plain cs]
        split <;> rfl
    · have first : radix? (c :: letter :: cs) = none := radix?_none_of_first (by simpa using zero)
      rw [first, radix?_none_of_first (by simpa using zero)]
      rfl

theorem number_ends : EndsBefore ending number := by
  intro cs
  rw [number, number, radix?_ends ended, decimal_ends ended]
  cases radix? cs <;> rfl

end Numbers

section

variable {cs : List Char}

/-- Nothing is left of what was taken as a number. -/
theorem number_again (starts : startsNumber cs = true) :
    number (number cs).1 = ((number cs).1, []) := by
  have whole : number ((number cs).1 ++ (number cs).2) = ((number cs).1, (number cs).2) := by
    rw [number_append]
  have again : number ((number cs).1 ++ []) = ((number cs).1, []) :=
    number_loosened whole (number_taken starts) List.nil_prefix nofun
  rwa [List.append_nil] at again

theorem number_zero_point (cs : List Char) :
    number ('0' :: '.' :: cs) = ('0' :: (number ('.' :: cs)).1, (number ('.' :: cs)).2) := by
  have point : ('.' : Char).isDigit = false := by decide
  have zero : ('0' : Char).isDigit = true := by decide
  simp [number, radix?, radixDigit?, decimal, run, point, zero]

theorem isNumberText_numberText (starts : startsNumber cs = true) :
    IsNumberText (numberText (number cs).1) := by
  have whole : number (numberText (number cs).1) = (numberText (number cs).1, []) := by
    have again := number_again starts
    obtain ⟨c, source, taken⟩ := List.exists_cons_of_ne_nil (number_taken starts)
    rw [taken] at again ⊢
    by_cases point : c = '.'
    · subst point
      simp only [numberText, List.head?_cons, beq_self_eq_true, if_true, number_zero_point, again]
    · simp [numberText, point, again]
  refine ⟨?_, fun ending ended => ?_⟩
  · obtain ⟨c, rest, text, digit⟩ := numberText_start starts
    exact ⟨c, rest, text, digit⟩
  · rw [number_ends ended, whole, List.nil_append]

/-- What is read as a literal without a quote is a number, after a minus or alone. -/
theorem read?_number {operand : Bool} {piece : Piece} (h : read? operand cs = some (.ok piece))
    (literal : piece.kind = .literal) (unquoted : isQuoted piece.text = false) :
    IsSignedText piece.text := by
  unfold read? at h
  split at h
  · have read := Option.some.inj h
    unfold readString at read
    split at read
    · cases read
    · cases read
      simp [isQuoted, Piece.verbatim] at unquoted
  split at h
  · have kind := readSpecified_kind (Option.some.inj h)
    rw [literal] at kind
    cases kind
  split at h
  case isTrue starts =>
    cases h
    exact ⟨_, isNumberText_numberText starts, .inl String.toList_ofList⟩
  split at h
  · obtain ⟨signed, found, same⟩ := Option.map_eq_some_iff.1 h
    cases same
    cases cs with
    | nil => cases found
    | cons sign cs =>
      obtain ⟨-, starts, rfl⟩ := readSigned?_eq_some.1 found
      refine ⟨_, isNumberText_numberText starts, ?_⟩
      simp only [String.toList_ofList]
      split
      · exact .inr rfl
      · exact .inl rfl
  · cases h

end

end Lexeme.Literal

namespace IsSignedText

variable {text : String} {cs : List Char} {previous : Option Token}

theorem heads (h : IsSignedText text) (ended : NumberEnd cs)
    (operand : previous.all Token.expectsOperand = true) :
    Piece.Heads previous ⟨.literal, text, text.toList, cs⟩ (text.toList ++ cs) := by
  obtain ⟨digits, isNumber, plain | signed⟩ := h
  · have front : Piece.Heads previous ⟨.literal, String.ofList digits, digits, cs⟩ (digits ++ cs) :=
      .unsigned isNumber ended
    rwa [← plain, String.ofList_toList] at front
  · have front := Piece.Heads.negative isNumber ended operand
    rwa [← List.cons_append, ← signed, String.ofList_toList] at front

theorem ne_mark (h : IsSignedText text) : text.toList ≠ ['?'] := by
  obtain ⟨_, isNumber, spelled⟩ := h
  obtain ⟨c, rest, rfl, digit⟩ := isNumber.start
  have other : c ≠ '?' := ne_of_digit digit (by decide)
  rcases spelled with spelled | spelled <;> simp [spelled, other]

/-- The scan of a number goes on with what comes after it. -/
theorem run (h : IsSignedText text) (ended : NumberEnd cs)
    (operand : previous.all Token.expectsOperand = true) (ordinal position : Nat) :
    Scan.run previous ordinal position (text.toList ++ cs) =
      .withLexeme ⟨⟨.literal, text⟩, position, position + text.utf8ByteSize⟩
        (Scan.run (some ⟨.literal, text⟩) ordinal (position + text.utf8ByteSize) cs) := by
  have unmarked : Scan.ordinalAfter ordinal ⟨.literal, text, text.toList, cs⟩ = ordinal :=
    if_neg h.ne_mark
  rw [Scan.run_heads (h.heads ended operand), unmarked, ← Text.size_toList]
  rfl

theorem of_scan {source : String} {ls : List Lexeme} {l : Lexeme} (scanned : (scan source).2 = .ok ls)
    (mem : l ∈ ls) (literal : l.kind = .literal) (unquoted : isQuoted l.text = false) :
    IsSignedText l.text := by
  obtain ⟨_, _, _, c, rest, piece, read, rfl⟩ := Scan.read_of_mem (Scan.run_of_scan scanned) mem
  exact Lexeme.Literal.read?_number (Piece.read_literal_kind read literal) literal unquoted

end IsSignedText

/-- The text of a number that was scanned is scanned as that number again, at the front of a text or
after a lexeme that expects an operand, also if the scan of what comes after it fails. -/
theorem scan_number_again {source : String} {ls : List Lexeme} (scanned : (scan source).2 = .ok ls)
    {l : Lexeme} (mem : l ∈ ls) (literal : l.kind = .literal) (unquoted : isQuoted l.text = false)
    {following : String} (ended : NumberEnd following.toList) :
    let number : Lexeme := ⟨⟨.literal, l.text⟩, 0, l.text.utf8ByteSize⟩
    (∀ previous ordinal, previous.all Token.expectsOperand = true →
      Scan.run previous ordinal 0 (l.text ++ following).toList =
        .withLexeme number (Scan.run (some number.toToken) ordinal number.stop following.toList)) ∧
      ∀ again, (scan (l.text ++ following)).2 = .ok again → again.head? = some number := by
  intro number
  have isNumber : IsSignedText l.text := .of_scan scanned mem literal unquoted
  have ran (previous : Option Token) (ordinal : Nat)
      (operand : previous.all Token.expectsOperand = true) :
      Scan.run previous ordinal 0 (l.text ++ following).toList =
        .withLexeme number (Scan.run (some number.toToken) ordinal number.stop following.toList) := by
    have front := isNumber.run ended operand ordinal 0
    rwa [Nat.zero_add, ← String.toList_append] at front
  refine ⟨ran, fun again rescanned => ?_⟩
  have outcome := Scan.run_of_scan rescanned
  rw [ran none 0 rfl] at outcome
  obtain ⟨later, -, rfl⟩ := Except.map_eq_ok.1 outcome
  rfl

/-- A number with a sign, blanks and no digit before its point is a number before a cast. -/
theorem scan_number_again_cast :
    let number : Lexeme := ⟨⟨.literal, "-0.5e1"⟩, 0, 6⟩
    (scan "1, - .5e1").2 = .ok [⟨⟨.literal, "1"⟩, 0, 1⟩, ⟨⟨.comma, ","⟩, 1, 2⟩,
      ⟨⟨.literal, "-0.5e1"⟩, 3, 9⟩] ∧
      Scan.run (some ⟨.openParen, "("⟩) 0 0 "-0.5e1::int".toList =
        .withLexeme number (Scan.run (some number.toToken) 0 6 "::int".toList) := by
  intro number
  have scanned : (scan "1, - .5e1").2 = .ok [⟨⟨.literal, "1"⟩, 0, 1⟩, ⟨⟨.comma, ","⟩, 1, 2⟩,
      ⟨⟨.literal, "-0.5e1"⟩, 3, 9⟩] := by decide +kernel
  have ended : NumberEnd "::int".toList := ⟨.cons (by decide) _, by decide⟩
  obtain ⟨ran, -⟩ := scan_number_again (l := ⟨⟨.literal, "-0.5e1"⟩, 3, 9⟩) scanned (by decide) rfl
    (by decide) ended
  exact ⟨scanned, ran (some ⟨.openParen, "("⟩) 0 (by decide)⟩

end SqlQuery
