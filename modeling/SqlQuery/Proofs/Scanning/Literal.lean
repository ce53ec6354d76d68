import SqlQuery.Proofs.Scanning.Name

/-!
Numbers, strings and parameters are scanned back.
-/

namespace SqlQuery

theorem digit_bounds {c : Char} (h : c.isDigit = true) : 48 ≤ c.toNat ∧ c.toNat ≤ 57 := by
  simpa [Char.isDigit, UInt32.le_iff_toNat_le] using h

/-- A digit is no other character that means something to a reader. -/
theorem ne_of_digit {c d : Char} (h : c.isDigit = true) (other : d.isDigit = false) : c ≠ d := by
  rintro rfl
  rw [h] at other
  cases other

theorem not_blank_of_digit {c : Char} (h : c.isDigit = true) : Text.isBlank c = false := by
  have apart : ∀ d ∈ [' ', '\t', '\n', '\r', '\x0b', '\x0c'], d.isDigit = false := List.all_iff_forall_prop.1 (by decide)
  cases found : Text.isBlank c with
  | false => rfl
  | true =>
    have mem : c ∈ [' ', '\t', '\n', '\r', '\x0b', '\x0c'] := by
      simpa [Text.isBlank, or_assoc] using found
    rw [apart c mem] at h
    cases h

theorem toLower_digit {c : Char} (h : c.isDigit = true) : c.toLower = c := by
  have bounds := digit_bounds h
  unfold Char.toLower
  split
  · rename_i upper
    simp [UInt32.le_iff_toNat_le] at upper
    have same : c.toNat = c.val.toNat := rfl
    omega
  · rfl

/-- What may stand directly after a number. -/
def NumberEnd (cs : List Char) : Prop := Boundary cs ∧ cs.head? ≠ some '.'

/-- The text of a number without a sign, which is taken whole. -/
structure IsNumberText (digits : List Char) : Prop where
  start : ∃ c cs, digits = c :: cs ∧ c.isDigit = true
  number : ∀ cs, NumberEnd cs → Lexeme.Literal.number (digits ++ cs) = (digits, cs)

/-- A number is written with a digit at its front. -/
theorem Lexeme.Literal.numberText_start {cs : List Char} (starts : startsNumber cs = true) :
    ∃ c rest, numberText (number cs).1 = c :: rest ∧ c.isDigit = true := by
  obtain ⟨c, source, taken⟩ := List.exists_cons_of_ne_nil (number_taken starts)
  have split := number_append cs
  rw [taken] at split ⊢
  unfold numberText
  split
  · exact ⟨'0', _, rfl, by decide⟩
  case isFalse noPoint =>
    rw [← split, List.cons_append, startsNumber, Bool.or_eq_true, Bool.and_eq_true] at starts
    have digit : c.isDigit = true := starts.resolve_right fun h => noPoint (by simpa using h.1)
    exact ⟨c, source, rfl, digit⟩

def radixLetters : List Char := ['x', 'X', 'b', 'B', 'o', 'O']

theorem radix?_none {cs : List Char} (h : ∀ c ∈ cs.tail.head?, c ∉ radixLetters) :
    Lexeme.Literal.radix? cs = none := by
  unfold Lexeme.Literal.radix?
  split
  · rename_i letter rest
    have other := h letter rfl
    simp only [radixLetters, List.mem_cons, List.not_mem_nil, or_false, not_or] at other
    simp [Lexeme.Literal.radixDigit?, other]
  · rfl

theorem isNumberText_digits {digits : List Char} (some : digits ≠ [])
    (all : ∀ c ∈ digits, c.isDigit = true) : IsNumberText digits := by
  obtain ⟨c, cs, rfl⟩ := List.exists_cons_of_ne_nil some
  refine ⟨⟨c, cs, rfl, all c List.mem_cons_self⟩, fun rest ended => ?_⟩
  have stop : rest.takeWhile Char.isDigit = [] ∧ rest.dropWhile Char.isDigit = rest := by
    have plain : ∀ c ∈ boundaryChars, c.isDigit = false := List.all_iff_forall_prop.1 (by decide)
    cases rest with
    | nil => exact ⟨rfl, rfl⟩
    | cons d rest => simp [plain d (ended.1 d rfl)]
  have whole : Lexeme.Literal.run Char.isDigit (c :: cs ++ rest) = (c :: cs, rest) := by
    rw [Lexeme.Literal.run, List.takeWhile_append_of_pos all, List.dropWhile_append_of_pos all,
      stop.1, stop.2, List.append_nil]
  have fraction : Lexeme.Literal.fraction rest = ([], rest) := by
    unfold Lexeme.Literal.fraction
    split
    · rename_i point
      exact absurd rfl ended.2
    · rfl
  have exponent : Lexeme.Literal.exponent rest = ([], rest) := by
    cases rest with
    | nil => rfl
    | cons d rest =>
      have plain : ∀ c ∈ boundaryChars, (c == 'e' || c == 'E') = false := List.all_iff_forall_prop.1 (by decide)
      have other := plain d (ended.1 d rfl)
      simp [Lexeme.Literal.exponent, other]
  have decimal : Lexeme.Literal.decimal (c :: cs ++ rest) = (c :: cs, rest) := by
    simp only [Lexeme.Literal.decimal, whole, fraction, exponent, List.append_nil]
  have radix : Lexeme.Literal.radix? (c :: cs ++ rest) = none := by
    refine radix?_none fun d head => ?_
    have letters : ∀ d ∈ radixLetters, d.isDigit = false ∧ d ∉ boundaryChars := List.all_iff_forall_prop.1 (by decide)
    intro letter
    cases cs with
    | nil => exact (letters d letter).2 (ended.1 d head)
    | cons e cs =>
      obtain rfl : e = d := by simpa using head
      have digit := all e (by simp)
      rw [(letters e letter).1] at digit
      cases digit
  rw [Lexeme.Literal.number, radix, decimal]
  rfl

namespace Piece.Heads

variable {previous : Option Token} {digits cs : List Char}

theorem unsigned (h : IsNumberText digits) (ended : NumberEnd cs) :
    Heads previous ⟨.literal, String.ofList digits, digits, cs⟩ (digits ++ cs) := by
  have number := h.number cs ended
  obtain ⟨c, rest, rfl, digit⟩ := h.start
  have quote : c ≠ '\x27' := ne_of_digit digit (by decide)
  have point : c ≠ '.' := ne_of_digit digit (by decide)
  have specifier : Lexeme.Literal.specifier? (c :: (rest ++ cs)) = none := by
    refine specifier?_none_of_first ?_ _
    have letters : ∀ d ∈ specifierLetters, d.isDigit = false := List.all_iff_forall_prop.1 (by decide)
    rw [toLower_digit digit]
    intro mem
    rw [letters c mem] at digit
    cases digit
  have starts : Lexeme.Literal.startsNumber (c :: (rest ++ cs)) = true := by
    simp [Lexeme.Literal.startsNumber, digit]
  have text : Lexeme.Literal.numberText (c :: rest) = c :: rest := by
    simp [Lexeme.Literal.numberText, point]
  have read (ordinal : Nat) : Piece.read previous ordinal c (rest ++ cs) =
      .ok ⟨.literal, String.ofList (c :: rest), c :: rest, cs⟩ := by
    rw [List.cons_append] at number
    simp [Piece.read, Lexeme.Literal.read?, quote, specifier, starts, Lexeme.Literal.readNumber,
      number, text]
  have slash : c ≠ '/' := ne_of_digit digit (by decide)
  have minus : c ≠ '-' := ne_of_digit digit (by decide)
  exact .mk (not_blank_of_digit digit) (startsComment_of_ne slash minus) read

theorem negative (h : IsNumberText digits) (ended : NumberEnd cs)
    (operand : previous.all Token.expectsOperand = true) :
    Heads previous ⟨.literal, String.ofList ('-' :: digits), '-' :: digits, cs⟩
      ('-' :: (digits ++ cs)) := by
  have number := h.number cs ended
  obtain ⟨c, rest, rfl, digit⟩ := h.start
  have blank := not_blank_of_digit digit
  have point : c ≠ '.' := ne_of_digit digit (by decide)
  have minus : c ≠ '-' := ne_of_digit digit (by decide)
  have specifier : Lexeme.Literal.specifier? ('-' :: (c :: rest ++ cs)) = none :=
    specifier?_none_of_first (by decide) _
  have starts : Lexeme.Literal.startsNumber (c :: (rest ++ cs)) = true := by
    simp [Lexeme.Literal.startsNumber, digit]
  have text : Lexeme.Literal.numberText (c :: rest) = c :: rest := by
    simp [Lexeme.Literal.numberText, point]
  have gap : Lexeme.Literal.run Text.isBlank (c :: (rest ++ cs)) = ([], c :: (rest ++ cs)) := by
    simp [Lexeme.Literal.run, blank]
  have read (ordinal : Nat) : Piece.read previous ordinal '-' (c :: rest ++ cs) =
      .ok ⟨.literal, String.ofList ('-' :: c :: rest), '-' :: c :: rest, cs⟩ := by
    rw [List.cons_append] at number specifier
    simp [Piece.read, Lexeme.Literal.read?, specifier, Lexeme.Literal.startsNumber, operand,
      Lexeme.Literal.readSigned?, gap, digit, number, text]
  have noComment : startsComment ('-' :: (c :: rest ++ cs)) = false := by
    simp [startsComment, Comment.startsBlock, List.isPrefixOf, Ne.symm minus]
  exact .mk (by decide) noComment read

end Piece.Heads

namespace Scans

variable {d : Dialect} {previous : Option Token} {cs : List Char} {ts : List Token}

/-- A number is scanned as its text. -/
theorem unsigned {digits : List Char} (h : IsNumberText digits) (ended : NumberEnd cs)
    (later : Scans d (some ⟨.literal, String.ofList digits⟩) cs ts) :
    Scans d previous (digits ++ cs) (⟨.literal, String.ofList digits⟩ :: ts) :=
  .next (.unsigned h ended) nofun later

/-- Where an operand is expected a number keeps its sign. -/
theorem negative {digits : List Char} (h : IsNumberText digits) (ended : NumberEnd cs)
    (operand : previous.all Token.expectsOperand = true)
    (later : Scans d (some ⟨.literal, String.ofList ('-' :: digits)⟩) cs ts) :
    Scans d previous ('-' :: (digits ++ cs)) (⟨.literal, String.ofList ('-' :: digits)⟩ :: ts) :=
  .next (.negative h ended operand) nofun later

end Scans

/-- The body of a string, in which no backslash hides the quote that ends it. -/
def isClosedBody : List Char → Bool
  | [] => true
  | '\\' :: c :: cs => c != '\x27' && isClosedBody cs
  | ['\\'] => false
  | _ :: cs => isClosedBody cs

/-- A backslash keeps the character after it, so that the two of them are one step. -/
theorem backslash_induction {motive : List Char → Prop} (nil : motive [])
    (pair : ∀ c cs, motive cs → motive ('\\' :: c :: cs)) (lone : motive ['\\'])
    (plain : ∀ c cs, c ≠ '\\' → motive cs → motive (c :: cs)) (cs : List Char) : motive cs := by
  induction cs using isClosedBody.induct with
  | case1 => exact nil
  | case2 c cs ih => exact pair c cs ih
  | case3 => exact lone
  | case4 c cs noPair noLone ih =>
    refine plain c cs ?_ ih
    rintro rfl
    cases cs with
    | nil => exact noLone rfl rfl
    | cons d cs => exact noPair d cs rfl rfl

section Plain

variable {c : Char} {cs : List Char}

theorem isClosedBody_cons (plain : c ≠ '\\') : isClosedBody (c :: cs) = isClosedBody cs := by
  rw [isClosedBody]
  · exact fun _ _ same => absurd same plain
  · exact fun same => absurd same plain

theorem unescape_cons (plain : c ≠ '\\') (other : c ≠ '\x27') :
    unescape (c :: cs) = c :: unescape cs := by
  rw [unescape]
  · exact fun _ same => absurd same plain
  · exact fun _ _ same => absurd same plain
  · exact fun same => absurd same other

theorem Lexeme.Literal.string?_cons (plain : c ≠ '\\') (other : c ≠ '\x27') :
    string? (c :: cs) = (string? cs).map fun (body, rest) => (c :: body, rest) := by
  rw [string?]
  · exact fun _ _ same => absurd same plain
  · exact fun _ same => absurd same other
  · exact fun same => absurd same other

end Plain

theorem string?_doubled {cs : List Char} (next : cs.head? ≠ some '\x27') (value : List Char)
    (closed : isClosedBody value = true) :
    Lexeme.Literal.string? (Text.doubled '\x27' value ++ '\x27' :: cs) =
      some (Text.doubled '\x27' value ++ ['\x27'], cs) := by
  induction value using backslash_induction with
  | nil =>
    cases cs with
    | nil => rfl
    | cons d cs =>
      have other : d ≠ '\x27' := by simpa using next
      simp [Lexeme.Literal.string?, other]
  | pair c value ih =>
    simp only [isClosedBody, Bool.and_eq_true, bne_iff_ne] at closed
    rw [Text.doubled_cons_of_ne (by decide), Text.doubled_cons_of_ne closed.1]
    simp only [List.cons_append]
    rw [Lexeme.Literal.string?, ih closed.2]
    rfl
  | lone => cases closed
  | plain c value plain ih =>
    rw [isClosedBody_cons plain] at closed
    by_cases quote : c = '\x27'
    · subst quote
      rw [Text.doubled_cons_self]
      simp only [List.cons_append]
      rw [Lexeme.Literal.string?, ih closed]
      rfl
    · rw [Text.doubled_cons_of_ne quote]
      simp only [List.cons_append]
      rw [Lexeme.Literal.string?_cons plain quote, ih closed]
      rfl

/-- The value of a string that is written in quotes. -/
theorem unescape_doubled (value : List Char) (closed : isClosedBody value = true) :
    unescape (Text.doubled '\x27' value) = value := by
  induction value using backslash_induction with
  | nil => simp [unescape]
  | pair c value ih =>
    simp only [isClosedBody, Bool.and_eq_true, bne_iff_ne] at closed
    rw [Text.doubled_cons_of_ne (by decide), Text.doubled_cons_of_ne closed.1, unescape]
    · rw [ih closed.2]
    · exact fun same => absurd same closed.1
  | lone => cases closed
  | plain c value plain ih =>
    rw [isClosedBody_cons plain] at closed
    by_cases quote : c = '\x27'
    · subst quote
      rw [Text.doubled_cons_self, unescape, List.drop_succ_cons, List.drop_zero, ih closed]
    · rw [Text.doubled_cons_of_ne quote, unescape_cons plain quote, ih closed]

theorem unquote_spellString {value : String} (closed : isClosedBody value.toList = true) :
    unquote (spellString value) = value := by
  have body : withoutQuotes (spellString value) = Text.doubled '\x27' value.toList := by
    simp [withoutQuotes, spellString]
  rw [unquote, body, unescape_doubled _ closed, String.ofList_toList]

theorem readString_spelled {value : String} {cs : List Char}
    (closed : isClosedBody value.toList = true) (next : cs.head? ≠ some '\x27') :
    Lexeme.Literal.readString (spellString value ++ cs) =
      .ok ⟨.literal, String.ofList (spellString value), spellString value, cs⟩ := by
  have body := string?_doubled next value.toList closed
  have split : (spellString value ++ cs).drop 1 =
      Text.doubled '\x27' value.toList ++ '\x27' :: cs := by simp [spellString]
  unfold Lexeme.Literal.readString
  rw [split, body]
  rfl

/-- A quote begins nothing but a string. -/
theorem Piece.read_string (previous : Option Token) (ordinal : Nat) (cs : List Char) :
    Piece.read previous ordinal '\x27' cs = Lexeme.Literal.readString ('\x27' :: cs) := by
  refine Piece.read_literal ?_
  unfold Lexeme.Literal.read?
  simp only [List.head?_cons, beq_self_eq_true, if_true]

theorem Piece.Heads.string {previous : Option Token} {value : String} {cs : List Char}
    (closed : isClosedBody value.toList = true) (next : cs.head? ≠ some '\x27') :
    Heads previous ⟨.literal, String.ofList (spellString value), spellString value, cs⟩
      (spellString value ++ cs) := by
  have read := readString_spelled closed next
  have split : spellString value ++ cs =
      '\x27' :: (Text.doubled '\x27' value.toList ++ ['\x27'] ++ cs) := by simp [spellString]
  rw [split] at read ⊢
  exact .mk (by decide) (startsComment_of_ne (by decide) (by decide)) fun ordinal =>
    (Piece.read_string previous ordinal _).trans read

namespace Scans

variable {d : Dialect} {previous : Option Token} {cs : List Char} {ts : List Token}

theorem specifier?_tight (more : List Char) : ∀ specifier ∈ tightSpecifiers,
    Lexeme.Literal.specifier? (specifier.toList ++ '\x27' :: more) = some specifier.toList := by
  intro specifier mem
  simp only [tightSpecifiers, List.mem_cons, List.not_mem_nil, or_false] at mem
  rcases mem with rfl | rfl | rfl | rfl
  all_goals rfl

/-- A string is scanned together with a specifier that touches it. -/
theorem specified {specifier value : String} (tight : specifier ∈ tightSpecifiers)
    (closed : isClosedBody value.toList = true) (next : cs.head? ≠ some '\x27')
    (later : Scans d (some ⟨.escapedString, specifier ++ String.ofList (spellString value)⟩) cs ts) :
    Scans d previous (specifier.toList ++ (spellString value ++ cs))
      (⟨.escapedString, specifier ++ String.ofList (spellString value)⟩ :: ts) := by
  have start : ∀ specifier ∈ tightSpecifiers, ∃ c rest, specifier.toList = c :: rest ∧
      c ≠ '\x27' ∧ Text.isBlank c = false ∧ c ≠ '/' ∧ c ≠ '-' := by
    intro specifier mem
    simp only [tightSpecifiers, List.mem_cons, List.not_mem_nil, or_false] at mem
    rcases mem with rfl | rfl | rfl | rfl
    all_goals exact ⟨_, _, rfl, by decide, by decide, by decide, by decide⟩
  have found := specifier?_tight (Text.doubled '\x27' value.toList ++ ['\x27'] ++ cs) specifier tight
  have quoted : spellString value ++ cs =
      '\x27' :: (Text.doubled '\x27' value.toList ++ ['\x27'] ++ cs) := by simp [spellString]
  have body : Lexeme.Literal.readSpecified specifier.toList
      (specifier.toList ++ (spellString value ++ cs)) = .ok ⟨.escapedString,
        specifier ++ String.ofList (spellString value), specifier.toList ++ spellString value,
          cs⟩ := by
    have read := readString_spelled closed next
    unfold Lexeme.Literal.readSpecified
    rw [List.drop_left, List.take_left, read]
    simp [Except.map]
  rw [← quoted] at found
  obtain ⟨c, rest, chars, quote, blank, slash, minus⟩ := start specifier tight
  have literal : Lexeme.Literal.read? (previous.all Token.expectsOperand)
      (specifier.toList ++ (spellString value ++ cs)) = some (.ok ⟨.escapedString,
        specifier ++ String.ofList (spellString value), specifier.toList ++ spellString value,
          cs⟩) := by
    have other : ((specifier.toList ++ (spellString value ++ cs)).head? == some '\x27') = false := by
      simpa [chars] using quote
    unfold Lexeme.Literal.read?
    simp only [other, Bool.false_eq_true, if_false, found, body]
  have split : specifier.toList ++ (spellString value ++ cs) =
      c :: (rest ++ (spellString value ++ cs)) := by rw [chars, List.cons_append]
  rw [split] at literal ⊢
  refine Scans.piece (specifier.toList ++ spellString value) blank (startsComment_of_ne slash minus)
    (fun ordinal => ?_) nofun later
  exact Piece.read_literal literal

/-- What begins with the mark of a parameter is no literal. -/
theorem literal_of_marker {c : Char} (mem : c ∈ '?' :: Dialect.parameterMarks) (operand : Bool)
    (rest : List Char) : Lexeme.Literal.read? operand (c :: rest) = none := by
  have facts : ∀ c ∈ '?' :: Dialect.parameterMarks, c.toLower ∉ specifierLetters ∧
      c.isDigit = false ∧ c ∉ ['\x27', '.', '+', '-'] := List.all_iff_forall_prop.1 (by decide)
  obtain ⟨letter, digit, others⟩ := facts c mem
  simp only [List.mem_cons, List.not_mem_nil, or_false, not_or] at others
  obtain ⟨quote, point, plus, minus⟩ := others
  have specifier := specifier?_none_of_first letter rest
  cases operand <;>
    simp [Lexeme.Literal.read?, specifier, Lexeme.Literal.startsNumber, quote, digit, point,
      Lexeme.Literal.readSigned?, plus, minus]

theorem marker_plain {c : Char} (mem : c ∈ '?' :: Dialect.parameterMarks) (cs : List Char) :
    Text.isBlank c = false ∧ startsComment (c :: cs) = false := by
  have facts : ∀ c ∈ '?' :: Dialect.parameterMarks, Text.isBlank c = false ∧ c ≠ '/' ∧ c ≠ '-' := List.all_iff_forall_prop.1 (by decide)
  obtain ⟨blank, slash, minus⟩ := facts c mem
  exact ⟨blank, startsComment_of_ne slash minus⟩

/-- A parameter is scanned as itself, or with its number for a name where the dialect writes none. -/
theorem parameter [h : d.Readable] {name : String} (nonempty : name.toList ≠ [])
    (chars : ∀ c ∈ name.toList, Text.isWordChar c = true) (boundary : Boundary cs)
    (later : Scans d (some ⟨.parameter, name⟩) cs ts) :
    Scans d previous (d.spellParameter name ++ cs) (⟨.parameter, name⟩ :: ts) := by
  cases style : d.parameterStyle with
  | named =>
    have mem : d.marker ∈ '?' :: Dialect.parameterMarks := List.mem_cons_of_mem _ h.marker
    obtain ⟨blank, comment⟩ := marker_plain mem (name.toList ++ cs)
    obtain ⟨taken, left⟩ := Lexeme.Name.word_of_boundary chars boundary
    have word : (name.toList ++ cs).head?.any Text.isWordChar = true := by
      obtain ⟨c, rest, split⟩ := List.exists_cons_of_ne_nil nonempty
      have first := chars c (by simp [split])
      simp [split, first]
    have marks : ∀ c ∈ Dialect.parameterMarks, (c == '?') = false ∧
        (c == ':' || c == '$' || c == '@') = true := List.all_iff_forall_prop.1 (by decide)
    obtain ⟨question, mark⟩ := marks _ h.marker
    have read (ordinal : Nat) : Lexeme.Name.readParameter? ordinal (d.marker :: (name.toList ++ cs)) =
        some ⟨.parameter, name, d.marker :: name.toList, cs⟩ := by
      simp [-List.head?_append, -Bool.or_eq_true, Lexeme.Name.readParameter?, question, mark, word,
        taken, left]
    have spelled : d.spellParameter name ++ cs = d.marker :: (name.toList ++ cs) := by
      simp [Dialect.spellParameter, style, h.single.2]
    rw [spelled]
    refine Scans.piece (d.marker :: name.toList) blank comment (fun ordinal => ?_) (fun _ => style) later
    exact Piece.read_named (literal_of_marker mem _ _) (read ordinal)
  | anonymous =>
    have mem : '?' ∈ '?' :: Dialect.parameterMarks := List.mem_cons_self
    obtain ⟨blank, comment⟩ := marker_plain mem cs
    have spelled : d.spellParameter name ++ cs = '?' :: cs := by
      simp [Dialect.spellParameter, style]
    rw [spelled]
    exact Scans.mark style rfl blank comment
      (fun ordinal => Piece.read_named (literal_of_marker mem _ _) rfl) later

end Scans

end SqlQuery
