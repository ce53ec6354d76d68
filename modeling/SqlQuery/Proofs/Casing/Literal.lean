import SqlQuery.Lexeme.Literal
import SqlQuery.Proofs.Casing.Token

/-!
Literals of a text in lowercase. Every reader takes the same number of characters off its front: the
letters that mean something to a number or a string, for a radix, an exponent or a specifier, do so
in either case.
-/

namespace SqlQuery.Lexeme.Literal

open Text

theorem run_lower {p : Char → Bool} (caseless : Caseless p) (cs : List Char) :
    run p (lowerChars cs) = lowerSplit (run p cs) := by
  rw [run, caseless.takeWhile, caseless.dropWhile]
  rfl

theorem startsNumber_lower (cs : List Char) : startsNumber (lowerChars cs) = startsNumber cs := by
  cases cs with
  | nil => rfl
  | cons c cs =>
    simp only [lowerChars_cons, startsNumber]
    rw [isDigit_caseless, toLower_beq (by decide), isDigit_caseless.head]

theorem radixDigit?_lower (letter : Char) : radixDigit? letter.toLower = radixDigit? letter := by
  simp only [radixDigit?]
  rw [toLower_either 'x' 'X' rfl rfl, toLower_either 'b' 'B' rfl rfl,
    toLower_either 'o' 'O' rfl rfl]

theorem radixDigit?_caseless {letter : Char} {digit : Char → Bool}
    (h : radixDigit? letter = some digit) : Caseless digit := by
  unfold radixDigit? at h
  split at h
  · exact Option.some.inj h ▸ isHexDigit_caseless
  split at h
  · exact Option.some.inj h ▸ isBinaryDigit_caseless
  split at h
  · exact Option.some.inj h ▸ isOctalDigit_caseless
  · cases h

theorem radix?_lower (cs : List Char) : radix? (lowerChars cs) = (radix? cs).map lowerSplit := by
  match cs with
  | [] => rfl
  | [c] => simp [radix?]
  | c :: letter :: cs =>
    by_cases zero : c = '0'
    · subst zero
      show radix? ('0' :: letter.toLower :: lowerChars cs) = _
      rw [radix?, radixDigit?_lower, radix?]
      cases found : radixDigit? letter with
      | none => rfl
      | some digit =>
        have caseless := radixDigit?_caseless found
        simp only [Option.bind_some, caseless.head, run_lower caseless]
        split <;> rfl
    · have other : c.toLower ≠ '0' := toLower_ne rfl zero
      simp [radix?, zero, other]

theorem fraction_lower (cs : List Char) : fraction (lowerChars cs) = lowerSplit (fraction cs) := by
  cases cs with
  | nil => rfl
  | cons c cs =>
    by_cases point : c = '.'
    · subst point
      show fraction ('.' :: lowerChars cs) = _
      rw [fraction, head?_lowerChars_beq rfl, run_lower isDigit_caseless, fraction]
      split <;> rfl
    · have other : c.toLower ≠ '.' := toLower_ne rfl point
      simp [fraction, point, other, lowerSplit]

theorem sign_lower (cs : List Char) : sign (lowerChars cs) = lowerSplit (sign cs) := by
  cases cs with
  | nil => rfl
  | cons c cs =>
    simp only [lowerChars_cons, sign]
    rw [toLower_beq (by decide), toLower_beq (by decide)]
    split <;> rfl

theorem exponent_lower (cs : List Char) : exponent (lowerChars cs) = lowerSplit (exponent cs) := by
  cases cs with
  | nil => rfl
  | cons e cs =>
    simp only [lowerChars_cons, exponent, sign_lower, lowerSplit]
    rw [toLower_either 'e' 'E' rfl rfl, isDigit_caseless.head, run_lower isDigit_caseless]
    split
    · simp [lowerSplit]
    · rfl

theorem decimal_lower (cs : List Char) : decimal (lowerChars cs) = lowerSplit (decimal cs) := by
  simp [decimal, run_lower isDigit_caseless, fraction_lower, exponent_lower, lowerSplit]

theorem number_lower (cs : List Char) : number (lowerChars cs) = lowerSplit (number cs) := by
  rw [number, radix?_lower, decimal_lower, Option.getD_map, number]

theorem numberText_lower (source : List Char) :
    numberText (lowerChars source) = lowerChars (numberText source) := by
  rw [numberText, head?_lowerChars_beq rfl, numberText]
  split <;> rfl

theorem string?_lower (cs : List Char) : string? (lowerChars cs) = (string? cs).map lowerSplit := by
  induction cs using string?.induct with
  | case1 => rfl
  | case2 c cs ih =>
    show string? ('\\' :: c.toLower :: lowerChars cs) = _
    rw [string?, ih, string?]
    cases string? cs <;> rfl
  | case3 cs ih =>
    show string? ('\x27' :: '\x27' :: lowerChars cs) = _
    rw [string?, ih, string?]
    cases string? cs <;> rfl
  | case4 cs single =>
    show string? ('\x27' :: lowerChars cs) = _
    rw [string?, string?]
    · rfl
    · exact single
    · intro rest double
      obtain ⟨rest, rfl⟩ := exists_of_lowerChars_eq_cons rfl double
      exact single rest rfl
  | case5 c cs no_escape no_double no_quote ih =>
    have quote : c.toLower ≠ '\x27' := toLower_ne rfl no_quote
    rw [lowerChars_cons, string?, ih, string?]
    · cases string? cs <;> rfl
    · exact no_escape
    · exact no_double
    · exact no_quote
    · exact not_followed_lower rfl no_escape
    · exact fun _ here _ => quote here
    · exact quote

theorem specifier?_lower (cs : List Char) : specifier? (lowerChars cs) = specifier? cs := by
  unfold specifier?
  congr 1
  funext word
  rw [take_lowerChars, lowerChars_lowerChars, drop_lowerChars, head?_lowerChars_beq rfl]

theorem lowerChars_of_specifier? {cs word : List Char} (h : specifier? cs = some word) :
    lowerChars word = word := by
  have listed : ∀ word ∈ specifiers, lowerChars word = word := by decide
  exact listed word (List.mem_of_find?_eq_some h)

theorem readNumber_lower (cs : List Char) : readNumber (lowerChars cs) = (readNumber cs).lower := by
  simp only [readNumber, number_lower, lowerSplit, numberText_lower]
  exact (Piece.lower_ofList rfl _ _ _).symm

theorem readSigned?_lower (cs : List Char) :
    readSigned? (lowerChars cs) = (readSigned? cs).map Piece.lower := by
  cases cs with
  | nil => rfl
  | cons c cs =>
    simp only [lowerChars_cons, readSigned?, run_lower isBlank_caseless, lowerSplit,
      startsNumber_lower, number_lower, numberText_lower]
    rw [toLower_beq rfl, toLower_beq rfl]
    split
    · rw [Option.map_some, Piece.lower_ofList rfl]
      simp only [lowerChars_append, lowerChars_cons]
      split <;> rfl
    · rfl

theorem readString_lower (cs : List Char) :
    readString (lowerChars cs) = (readString cs).map Piece.lower := by
  unfold readString
  rw [drop_lowerChars, string?_lower]
  cases string? (cs.drop 1) with
  | none => rfl
  | some split =>
    exact congrArg Except.ok (Piece.lower_verbatim rfl ('\x27' :: split.1) split.2).symm

theorem readSpecified_lower {word : List Char} (lower : lowerChars word = word) (cs : List Char) :
    readSpecified word (lowerChars cs) = (readSpecified word cs).map Piece.lower := by
  unfold readSpecified
  rw [drop_lowerChars, readString_lower, take_lowerChars]
  cases readString (cs.drop word.length) with
  | error fault => rfl
  | ok piece =>
    refine congrArg Except.ok (Eq.symm ?_)
    rw [Piece.lower_ofList rfl, lowerChars_append, lowerChars_append, lower]
    rfl

/-- The same literal is read in lowercase, or the same fault met. -/
theorem read?_lower (operand : Bool) (cs : List Char) :
    read? operand (lowerChars cs) = (read? operand cs).map (Except.map Piece.lower) := by
  unfold read?
  rw [head?_lowerChars_beq rfl, specifier?_lower, readString_lower, startsNumber_lower,
    readNumber_lower, readSigned?_lower]
  split
  · rfl
  split
  case h_1 word found =>
    rw [readSpecified_lower (lowerChars_of_specifier? found)]
    rfl
  case h_2 =>
    split
    · rfl
    split
    · cases readSigned? cs <;> rfl
    · rfl

end SqlQuery.Lexeme.Literal
