import SqlQuery.Proofs.Layout.Text
import SqlQuery.Proofs.Scanning.Name
import SqlQuery.Proofs.Slice.Normal
import SqlQuery.Proofs.Spacing.Scan

/-!
The errors of a scan. An error points between two characters, in front of the text that its fault is
about, and shows what stands around that place.
-/

namespace SqlQuery

open Text (size lowerChars isBlank isDelimiter isWordChar doubled)

/-- What may stand between the quotes of a string: a backslash hides the character after it, and a quote
stands twice. -/
inductive StringBody : List Char → Prop
  | nil : StringBody []
  | hidden {cs : List Char} (c : Char) (later : StringBody cs) : StringBody ('\\' :: c :: cs)
  | quote {cs : List Char} (later : StringBody cs) : StringBody ('\x27' :: '\x27' :: cs)
  | plain {c : Char} {cs : List Char} (noEscape : c ≠ '\\') (noQuote : c ≠ '\x27')
      (later : StringBody cs) : StringBody (c :: cs)

/-- After a body comes a quote that no other quote follows. -/
def ClosesString (cs : List Char) : Prop :=
  ∃ body rest, StringBody body ∧ cs = body ++ '\x27' :: rest ∧ rest.head? ≠ some '\x27'

/-- After a name comes its closing delimiter, and it is not the first of two. -/
def ClosesName (close : Char) (cs : List Char) : Prop :=
  ∃ name rest, cs = doubled close name ++ close :: rest ∧ rest.head? ≠ some close

/-- What is left of the text when the fault is met. -/
def Fault.Explains (left : List Char) : Fault → Prop
  | .unclosedString => ∃ specifier body, left = specifier ++ '\x27' :: body ∧
      (specifier = [] ∨ lowerChars specifier ∈ Lexeme.Literal.specifiers) ∧ ¬ ClosesString body
  | .unclosedIdentifier close => ∃ opening body, left = opening :: body ∧
      closing? opening = some close ∧ ¬ ClosesName close body
  | .unclosedComment => ∃ body, left = '/' :: '*' :: body ∧ body.head? ≠ some '+' ∧
      ¬ ['*', '/'] <:+: body
  | .unexpectedCharacter c => ∃ later, left = c :: later ∧ (c = '\x7b' ∨ c = '\x7d')

/-- The error is about what is left of the text at its position, and shows up to five characters on each
side of it, with a caret below the first one that is left. -/
structure ScanError.About (e : ScanError) (passed left : List Char) : Prop where
  position : e.position = size passed
  some : left ≠ []
  fault : e.fault.Explains left
  context : ∃ shown, shown <:+ passed ∧ shown.length = min passed.length 5 ∧ e.context =
    String.ofList (shown ++ left.take 5 ++ '\n' :: (List.replicate shown.length ' ' ++ ['^']))

section Excerpts

variable {text : String} {passed left : List Char}

theorem Text.splitBytes?_size (passed left : List Char) :
    splitBytes? (size passed) (passed ++ left) = some (passed, left) := by
  induction passed with
  | nil => rw [size_nil, List.nil_append, splitBytes?.eq_def]
  | cons c passed ih =>
    obtain ⟨n, same⟩ := Nat.exists_eq_succ_of_ne_zero c.utf8Size_pos.ne'
    have more : size (c :: passed) = n + size passed + 1 := by
      rw [size_cons, same]
      omega
    have rest : n + size passed + 1 - c.utf8Size = size passed := by omega
    rw [more, List.cons_append, splitBytes?, if_pos (by omega), rest, ih]
    rfl

theorem Text.excerptAt?_size (whole : text.toList = passed ++ left) :
    excerptAt? text (size passed) = some (excerpt passed left) := by
  rw [excerptAt?, whole, splitBytes?_size]
  rfl

theorem Text.excerpt_shows (passed left : List Char) : ∃ shown, shown <:+ passed ∧
    shown.length = min passed.length 5 ∧ excerpt passed left =
      String.ofList (shown ++ left.take 5 ++ '\n' :: (List.replicate shown.length ' ' ++ ['^'])) := by
  refine ⟨passed.drop (passed.length - 5), List.drop_suffix _ _, ?_, rfl⟩
  rw [List.length_drop]
  omega

end Excerpts

namespace Lexeme

variable {c : Char} {cs left body rest : List Char} {f : Fault}

theorem Literal.string?_closes (closed : StringBody body) (next : rest.head? ≠ some '\x27') :
    ∃ found, string? (body ++ '\x27' :: rest) = some found := by
  induction closed with
  | nil =>
    refine ⟨(['\x27'], rest), ?_⟩
    rw [List.nil_append, string?]
    rintro more rfl
    exact next rfl
  | hidden c _ ih | quote _ ih =>
    obtain ⟨found, same⟩ := ih
    simp [string?, same]
  | plain noEscape noQuote _ ih =>
    obtain ⟨found, same⟩ := ih
    simp [string?_cons noEscape noQuote, same]

theorem Literal.readString_fault (h : readString ('\x27' :: cs) = .error f) :
    f = .unclosedString ∧ ¬ ClosesString cs := by
  unfold readString at h
  split at h <;> cases h
  refine ⟨rfl, ?_⟩
  rintro ⟨body, rest, closed, same, next⟩
  obtain ⟨found, closes⟩ := string?_closes closed next
  simp_all

theorem Literal.read?_fault {operand : Bool} (h : read? operand cs = some (.error f)) :
    f.Explains cs := by
  unfold read? at h
  split at h
  case isTrue quote =>
    obtain ⟨body, rfl⟩ := List.head?_eq_some_iff.1 (beq_iff_eq.1 quote)
    obtain ⟨rfl, unclosed⟩ := readString_fault (Option.some.inj h)
    exact ⟨[], body, rfl, .inl rfl, unclosed⟩
  split at h
  case h_1 word found =>
    have passes := List.find?_some found
    obtain ⟨front, body, rfl, lower⟩ := specifies_iff.1 passes
    have length : word.length = front.length := by rw [← lower, lowerChars, List.length_map]
    have left : (front ++ '\x27' :: body).drop word.length = '\x27' :: body := by simp [length]
    have unread := Except.map_eq_error.1 (Option.some.inj h)
    rw [left] at unread
    obtain ⟨rfl, unclosed⟩ := readString_fault unread
    exact ⟨front, body, rfl, .inr (lower ▸ List.mem_of_find?_eq_some found), unclosed⟩
  · split at h
    · cases h
    · split at h
      · obtain ⟨_, _, other⟩ := Option.map_eq_some_iff.1 h
        cases other
      · cases h

theorem Name.readQuoted_fault {opening close : Char} (h : readQuoted opening close cs = .error f) :
    f = .unclosedIdentifier close ∧ ¬ ClosesName close cs := by
  unfold readQuoted at h
  split at h <;> cases h
  refine ⟨rfl, ?_⟩
  rintro ⟨name, rest, same, next⟩
  simp_all [quoted?_doubled next name]

theorem Name.read?_fault {wildcard bracket : Bool}
    (h : read? wildcard bracket cs = some (.error f)) : f.Explains cs := by
  unfold read? at h
  split at h
  · cases h
  case h_2 c cs =>
    split at h
    · cases h
    split at h
    case isTrue quote =>
      obtain ⟨rfl, unclosed⟩ := readQuoted_fault (Option.some.inj h)
      exact ⟨c, cs, rfl, if_pos (by simpa using quote), unclosed⟩
    split at h
    case isTrue bracket =>
      obtain ⟨rfl, unclosed⟩ := readQuoted_fault (Option.some.inj h)
      obtain rfl : c = '[' := by simp_all
      exact ⟨'[', cs, rfl, rfl, unclosed⟩
    split at h <;> cases h

theorem Symbol.read_fault (h : read c cs = .error f) : f = .unexpectedCharacter c ∧
    punctuation? c = none ∧ Text.isOperatorChar c = false ∧ c ≠ ':' := by
  unfold read at h
  split at h
  · cases h
  case h_2 other =>
    split at h
    · cases h
    · split at h <;> cases h
      simp_all

end Lexeme

theorem Comment.untilEnd?_infix {cs : List Char} (h : untilEnd? cs = none) :
    ¬ ['*', '/'] <:+: cs := by
  induction cs using untilEnd?.induct with
  | case1 => simp
  | case2 => cases h
  | case3 c cs notEnd ih =>
    rw [untilEnd?, Option.map_eq_none_iff] at h
    · rw [List.infix_cons_iff]
      rintro (⟨more, same⟩ | later)
      · obtain ⟨rfl, rfl⟩ := List.cons.inj same
        exact notEnd more rfl rfl
      · exact ih h later
    · exact notEnd

theorem Comment.unclosed {cs : List Char} (block : startsBlock cs = true) (unread : read? cs = none) :
    Fault.unclosedComment.Explains cs := by
  obtain ⟨⟨body, rfl⟩, noHint⟩ := (startsBlock_iff cs).1 block
  unfold read? at unread
  rw [if_pos block, ofBlock?, Option.map_eq_none_iff] at unread
  refine ⟨body, rfl, fun hint => noHint ?_, untilEnd?_infix unread⟩
  obtain ⟨more, rfl⟩ := List.head?_eq_some_iff.1 hint
  rfl

namespace Piece

variable {previous : Option Token} {ordinal : Nat} {c : Char} {cs : List Char} {f : Fault}

/-- The readers in the order of their turns. Each of them may find nothing of its kind in front, the last
one only where no text is left. -/
def readers (previous : Option Token) (ordinal : Nat) :
    List (List Char → Option (Except Fault Piece)) :=
  [Lexeme.Literal.read? (previous.all Token.expectsOperand),
    fun cs => (Lexeme.Name.readParameter? ordinal cs).map .ok,
    Lexeme.Name.read? (previous.all Token.precedesWildcard)
      (!previous.any fun l => l.isCommand "array"),
    fun cs => cs.head?.map fun c => Lexeme.Symbol.read c cs.tail]

theorem readers_find (previous : Option Token) (ordinal : Nat) (c : Char) (cs : List Char) :
    (readers previous ordinal).findSome? (· (c :: cs)) = some (Piece.read previous ordinal c cs) := by
  cases literal : Lexeme.Literal.read? (previous.all Token.expectsOperand) (c :: cs) with
  | some result => simp [readers, Piece.read, literal]
  | none =>
    cases parameter : Lexeme.Name.readParameter? ordinal (c :: cs) with
    | some piece => simp [readers, Piece.read, literal, parameter]
    | none =>
      cases name : Lexeme.Name.read? (previous.all Token.precedesWildcard)
          (!previous.any fun l => l.isCommand "array") (c :: cs) with
      | some result => simp [readers, Piece.read, literal, parameter, name]
      | none => simp [readers, Piece.read, literal, parameter, name]

/-- What no other reader takes is a symbol, a blank or a brace. -/
theorem read_fault (visible : isBlank c = false) (h : Piece.read previous ordinal c cs = .error f) :
    f.Explains (c :: cs) := by
  unfold Piece.read at h
  split at h
  case h_1 found => exact Lexeme.Literal.read?_fault (h ▸ found)
  case h_2 literal =>
    split at h
    case h_1 => cases h
    case h_2 parameter =>
      dsimp only at h
      split at h
      case h_1 found => exact Lexeme.Name.read?_fault (h ▸ found)
      case h_2 name =>
        obtain ⟨rfl, symbol, operator, colon⟩ := Lexeme.Symbol.read_fault h
        have noQuote : c ≠ '\x27' := by
          rintro rfl
          cases literal
        have noMark : c ≠ '?' := by
          rintro rfl
          cases parameter
        have noTick : c ≠ '\x60' := by
          rintro rfl
          cases name
        have noQuotes : c ≠ '\x22' := by
          rintro rfl
          cases name
        have delimiter := (Lexeme.Name.read?_none name cs).2
        simp only [isWordChar, isDelimiter, visible, operator, Bool.false_or, Bool.not_eq_false',
          List.contains_iff_mem] at delimiter
        refine ⟨cs, rfl, ?_⟩
        simp only [Text.punctuationChars, List.mem_cons, List.not_mem_nil, or_false] at delimiter
        rcases delimiter with rfl | rfl | rfl | rfl | rfl | rfl | rfl | rfl | rfl | rfl | rfl | rfl |
          rfl | rfl
        all_goals first | exact .inl rfl | exact .inr rfl | contradiction

end Piece

namespace Scan

variable {previous : Option Token} {ordinal position : Nat} {cs : List Char}

/-- A scan that fails leaves the text that its fault is about. -/
theorem run_fault {text before : List Char} {f : Fault} {place : Nat} (whole : text = before ++ cs)
    (here : position = size before)
    (h : (Scan.run previous ordinal position cs).outcome = .error (f, place)) :
    ∃ passed left, text = passed ++ left ∧ place = size passed ∧ left ≠ [] ∧ f.Explains left := by
  induction measured : cs.length using Nat.strongRecOn
    generalizing before cs previous ordinal position with
  | ind n ih =>
    obtain ⟨gap, passes⟩ := Gap.skip_passes whole here
    have stops := passes.stops
    rw [run_outcome] at h
    split at h
    case h_1 => cases h
    case h_2 c rest left =>
      have split : text = (before ++ gap) ++ (c :: rest) := by
        rw [whole, passes.split, left, List.append_assoc]
      have low : (Gap.skip position cs).position = size (before ++ gap) := by
        rw [stops, here, Text.size_append]
      obtain ⟨visible, unread⟩ := Gap.ends_of_skip left
      split at h
      case isTrue block =>
        cases h
        exact ⟨_, _, split, low, List.cons_ne_nil _ _, Comment.unclosed block unread⟩
      case isFalse =>
        split at h
        case h_1 read =>
          cases h
          exact ⟨_, _, split, low, List.cons_ne_nil _ _, Piece.read_fault visible read⟩
        case h_2 piece read =>
          have splits := Piece.read_splits read
          have shorter : piece.rest.length < n := by
            have := splits.rest_lt
            have := Gap.rest_le position cs
            rw [left] at this
            omega
          have onward : text = before ++ gap ++ piece.source ++ piece.rest := by
            rw [split, ← splits.1, List.append_assoc _ piece.source]
          have high : (piece.lexemeAt (Gap.skip position cs).position).stop =
              size (before ++ gap ++ piece.source) := by
            simp only [Piece.lexemeAt, low, Text.size_append]
          exact ih _ shorter onward high (Except.map_eq_error.1 h) rfl

theorem run_of_fault {text : String} {e : ScanError} (h : (scan text).2 = .error e) :
    (Scan.run none 0 0 text.toList).outcome = .error (e.fault, e.position) ∧
      e.context = (Text.excerptAt? text e.position).getD "" := by
  unfold scan at h
  dsimp only at h
  cases ran : (Scan.run none 0 0 text.toList).outcome with
  | error fault =>
    rw [ran] at h
    cases h
    exact ⟨rfl, rfl⟩
  | ok ls =>
    rw [ran] at h
    cases h

end Scan

/--
A scan that fails points in front of a character of the text, and there is an excerpt of the text there: up
to five characters before that place and up to five from it on, and below them a caret after as many
spaces as characters are shown before the place. What stands there is what the fault says: a quote, alone
or after a specifier, and no quote that ends the string; the opening delimiter of a name and no closing
one that is not doubled; the opening of a block comment, not of a hint, and no end of it; or a brace.
Wherever text is left one of the readers has an answer, so a scan fails in no other way.
-/
theorem scan_fault {text : String} {e : ScanError} (h : (scan text).2 = .error e) :
    (∃ passed left, text.toList = passed ++ left ∧ e.About passed left) ∧
      String.Pos.Raw.IsValid text ⟨e.position⟩ ∧ e.position < text.utf8ByteSize ∧
      Text.excerptAt? text e.position = some e.context ∧
      ∀ previous ordinal c cs, (Piece.readers previous ordinal).findSome? (· (c :: cs)) =
        some (Piece.read previous ordinal c cs) := by
  obtain ⟨ran, context⟩ := Scan.run_of_fault h
  obtain ⟨passed, left, whole, position, some, explains⟩ :=
    Scan.run_fault (List.nil_append _).symm rfl ran
  have excerpt := Text.excerptAt?_size whole
  rw [← position] at excerpt
  rw [excerpt, Option.getD_some] at context
  have below : size passed < text.utf8ByteSize := by
    obtain ⟨c, later, rfl⟩ := List.exists_cons_of_ne_nil some
    have taken := c.utf8Size_pos
    rw [← Text.size_toList, whole, Text.size_append, Text.size_cons]
    omega
  refine ⟨⟨passed, left, whole, position, some, explains, ?_⟩, IsBoundary.isValid ⟨_, _, whole, ?_⟩,
    position ▸ below, context ▸ excerpt, Piece.readers_find⟩
  · exact context ▸ Text.excerpt_shows passed left
  · exact position.symm

/-- A string with a specifier, whose only quote is hidden by a backslash, after `é`. -/
theorem scan_fault_string :
    let text := "select é, E'it\\'"
    ∃ e, (scan text).2 = .error e ∧ e.fault = .unclosedString ∧ e.position = 11 ∧
      e.context = "t é, E'it\\\n     ^" ∧
      (∃ passed left, text.toList = passed ++ left ∧ e.About passed left) ∧
      String.Pos.Raw.IsValid text ⟨e.position⟩ ∧ e.position < text.utf8ByteSize ∧
      Text.excerptAt? text e.position = some e.context ∧
      ∀ previous ordinal c cs, (Piece.readers previous ordinal).findSome? (· (c :: cs)) =
        some (Piece.read previous ordinal c cs) := by
  intro text
  have failed : (scan text).2 =
      .error ⟨.unclosedString, 11, "t é, E'it\\\n     ^"⟩ := by decide +kernel
  exact ⟨_, failed, rfl, rfl, rfl, scan_fault failed⟩

end SqlQuery
