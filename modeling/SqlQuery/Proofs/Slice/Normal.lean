import SqlQuery.Proofs.Keyword.Longest
import SqlQuery.Proofs.Lexeme.Inversion
import SqlQuery.Proofs.Spacing.Literal

/-!
The text of a lexeme is a normal form of what the lexeme takes of the query text: keywords in lowercase
with single blanks, names without their quotes, numbers without blanks, and all else as it stands.
-/

namespace SqlQuery

open Text

section NormalForms

/-- The parts of the text between its blanks. -/
def blankParts (cs : List Char) : List (List Char) := (cs.splitOnP isBlank).filter (· ≠ [])

/-- The words in lowercase with one blank between each two. -/
def keywordText (slice : List Char) : List Char :=
  [' '].intercalate ((blankParts slice).map lowerChars)

/-- The delimiter that closes a name after this one. -/
def closing? (c : Char) : Option Char :=
  if c = '\x60' ∨ c = '\x22' then some c else if c = '[' then some ']' else none

/-- Takes the mark once where it stands twice. -/
def halved (mark : Char) : List Char → List Char
  | c :: d :: cs =>
    if c = mark ∧ d = mark then mark :: halved mark cs else c :: halved mark (d :: cs)
  | cs => cs

/-- What stands between the delimiters of a name, if it has any. -/
def nameText : List Char → List Char
  | [] => []
  | c :: cs => match closing? c with
    | some close => halved close cs.dropLast
    | none => c :: cs

/-- A digit stands in front of the point. -/
def pointText (cs : List Char) : List Char := if cs.head? = some '.' then '0' :: cs else cs

/-- A number keeps no plus and no blanks after its sign. -/
def numeralText : List Char → List Char
  | '+' :: cs => pointText (cs.dropWhile isBlank)
  | '-' :: cs => '-' :: pointText (cs.dropWhile isBlank)
  | cs => pointText cs

/-- A string after its specifier, which is written in lowercase. -/
def specifiedText (slice : List Char) : List Char :=
  lowerChars (slice.takeWhile (· ≠ '\x27')) ++ slice.dropWhile (· ≠ '\x27')

/-- The text of a lexeme that takes the slice. The marks are those of parameters without a name, up to
this one. -/
def normalText (kind : Kind) (marks : Nat) (slice : List Char) : List Char :=
  match kind with
  | .command => keywordText slice
  | .identifier => nameText slice
  | .literal => if slice.head? = some '\x27' then slice else numeralText slice
  | .escapedString => specifiedText slice
  | .parameter => if slice = ['?'] then (toString marks).toList else slice.drop 1
  | _ => slice

end NormalForms

section Words

variable {cs blanks w : List Char} {ws : List SpacedWord}

theorem blankParts_blanks (blank : ∀ c ∈ blanks, isBlank c = true) (cs : List Char) :
    blankParts (blanks ++ cs) = blankParts cs := by
  induction blanks with
  | nil => rfl
  | cons b blanks ih =>
    have first : isBlank b = true := blank b List.mem_cons_self
    have later := ih fun c mem => blank c (List.mem_cons_of_mem b mem)
    rw [← later]
    simp [blankParts, List.splitOnP_cons_eq_if_modifyHead, first]

theorem blankParts_word (some : w ≠ []) (plain : ∀ c ∈ w, isBlank c = false)
    (stops : cs.head?.all isBlank = true) : blankParts (w ++ cs) = w :: blankParts cs := by
  cases cs with
  | nil =>
    rw [List.append_nil]
    simp [blankParts, List.splitOnP_eq_singleton plain, some]
  | cons b cs =>
    have blank : isBlank b = true := stops
    have later : blankParts (b :: cs) = blankParts cs :=
      blankParts_blanks (show ∀ c ∈ [b], isBlank c = true by simpa using blank) cs
    rw [later]
    simp [blankParts, List.splitOnP_append_cons_of_forall_mem plain b blank, some]

/-- Blanks stand in front of words that follow a word. -/
theorem head_sourceOf (front : FrontWords cs ws) (stops : cs.head?.any isWordChar = false) (k : Nat) :
    (sourceOf (ws.take k)).head?.all isBlank = true := by
  cases front with
  | ended => simp [sourceOf]
  | @cons blanks w rest ws blank taken chars _ _ =>
    cases k with
    | zero => rfl
    | succ k =>
      cases blanks with
      | cons b blanks => exact blank b List.mem_cons_self
      | nil =>
        obtain ⟨c, w, rfl⟩ := List.exists_cons_of_ne_nil taken
        have isWord : isWordChar c = false := stops
        rw [chars c List.mem_cons_self] at isWord
        cases isWord

/-- The words taken from the front are the parts of their text between the blanks. -/
theorem blankParts_sourceOf (front : FrontWords cs ws) (k : Nat) :
    blankParts (sourceOf (ws.take k)) = (ws.take k).map (·.word) := by
  induction front generalizing k with
  | ended => simp [sourceOf, show blankParts [] = [] from rfl]
  | @cons blanks w rest ws blank taken chars stops later ih =>
    cases k with
    | zero => rfl
    | succ k =>
      have source : sourceOf ((⟨blanks, w⟩ :: ws).take (k + 1)) =
          blanks ++ (w ++ sourceOf (ws.take k)) := by simp [sourceOf]
      rw [source, blankParts_blanks blank, blankParts_word taken
        (fun c mem => isWordChar_plain c (chars c mem)) (head_sourceOf later stops k), ih k]
      rfl

theorem keywordText_sourceOf (front : FrontWords cs ws) (k : Nat) :
    keywordText (sourceOf (ws.take k)) = (phraseOf (ws.take k)).toList := by
  rw [keywordText, blankParts_sourceOf front, phraseOf, String.toList_intercalate, List.map_map,
    List.map_map]
  congr 1
  refine List.map_congr_left fun w _ => ?_
  simp

end Words

namespace Lexeme

variable {c : Char} {cs : List Char} {piece : Piece}

theorem Name.readWord_normal (start : isWordChar c = true) (marks : Nat) :
    (Name.readWord (c :: cs)).text.toList =
      normalText (Name.readWord (c :: cs)).kind marks (Name.readWord (c :: cs)).source := by
  obtain ⟨ws, front⟩ := Name.exists_frontWords (c :: cs)
  rcases Name.readWord_front start front with ⟨k, left, _, _, read⟩ | ⟨_, w, left, _, split, read⟩
  · rw [read]
    exact (keywordText_sourceOf front k).symm
  · rw [read]
    have none : closing? c = none := by
      have other {d : Char} (delimiter : isWordChar d = false) : c ≠ d := by
        rintro rfl
        rw [delimiter] at start
        cases start
      have noTick : c ≠ '\x60' := other rfl
      have noQuotes : c ≠ '\x22' := other rfl
      have noBracket : c ≠ '[' := other rfl
      simp [closing?, noTick, noQuotes, noBracket]
    cases w with
    | nil => simp [normalText, nameText]
    | cons d w =>
      obtain ⟨rfl, -⟩ := List.cons.inj split
      simp [normalText, nameText, none]

theorem halved_doubled (mark : Char) (name : List Char) :
    halved mark (doubled mark name) = name := by
  induction name with
  | nil => rfl
  | cons c name ih =>
    by_cases same : c = mark
    · subst same
      rw [doubled_cons_self, halved, if_pos ⟨rfl, rfl⟩, ih]
    · rw [doubled_cons_of_ne same]
      cases rest : doubled mark name with
      | nil =>
        rw [rest] at ih
        rw [halved]
        · exact congrArg (c :: ·) ih
        · simp
      | cons d ds =>
        rw [rest] at ih
        rw [halved, if_neg (fun both => same both.1), ih]

theorem Name.readQuoted_normal {opening close : Char} (closes : closing? opening = some close)
    (h : Name.readQuoted opening close cs = .ok piece) (marks : Nat) :
    piece.text.toList = normalText piece.kind marks piece.source := by
  unfold Name.readQuoted at h
  split at h
  · cases h
  case h_2 name rest found =>
    cases h
    have inner : (doubled close name ++ [close]).dropLast = doubled close name := List.dropLast_concat
    simp only [normalText, nameText, closes, List.cons_append, inner, halved_doubled,
      String.toList_ofList]

theorem Name.read?_normal {wildcard bracket : Bool}
    (h : Name.read? wildcard bracket (c :: cs) = some (.ok piece)) (marks : Nat) :
    piece.text.toList = normalText piece.kind marks piece.source := by
  unfold Name.read? at h
  dsimp only at h
  split at h
  · cases h
    simp [Piece.verbatim, normalText, nameText, closing?]
  split at h
  case isTrue quote =>
    refine Name.readQuoted_normal ?_ (Option.some.inj h) marks
    rw [closing?, if_pos (by simpa using quote)]
  split at h
  case isTrue quote =>
    refine Name.readQuoted_normal ?_ (Option.some.inj h) marks
    simp only [Bool.and_eq_true, beq_iff_eq] at quote
    simp [closing?, quote.1]
  split at h
  · cases h
  case isFalse plain =>
    cases h
    exact Name.readWord_normal (by simpa [isWordChar] using plain) marks

theorem Name.readParameter?_normal {ordinal : Nat}
    (h : Name.readParameter? ordinal (c :: cs) = some piece) :
    piece.text.toList = normalText piece.kind (Scan.ordinalAfter ordinal piece) piece.source := by
  unfold Name.readParameter? at h
  dsimp only at h
  split at h
  · cases h
    simp [normalText, Scan.ordinalAfter]
  case isFalse other =>
    split at h
    · cases h
      have named : c ≠ '?' := by simpa using other
      simp [normalText, named]
    · cases h

theorem Literal.readNumber_normal (starts : Literal.startsNumber (c :: cs) = true) (marks : Nat) :
    (Literal.readNumber (c :: cs)).text.toList =
      normalText .literal marks (Literal.readNumber (c :: cs)).source := by
  have taken := Literal.number_taken starts
  have split := Literal.number_append (c :: cs)
  obtain ⟨d, source, same⟩ := List.exists_cons_of_ne_nil taken
  rw [same] at split
  obtain ⟨rfl, -⟩ := List.cons.inj split
  have digit (e : Char) (mem : e ∈ ['\x27', '+', '-']) : d ≠ e := by
    rintro rfl
    simp only [List.mem_cons, List.not_mem_nil, or_false] at mem
    rcases mem with rfl | rfl | rfl <;> simp [Literal.startsNumber] at starts
  simp [Literal.readNumber, same, normalText, numeralText, pointText, Literal.numberText, digit]

theorem Literal.readSigned?_normal (h : Literal.readSigned? (c :: cs) = some piece) (marks : Nat) :
    piece.text.toList = normalText .literal marks piece.source := by
  obtain ⟨sign, starts, rfl⟩ := Literal.readSigned?_eq_some.1 h
  have blank : ∀ d ∈ cs.takeWhile isBlank, isBlank d = true := fun d mem => List.mem_takeWhile_imp mem
  have tight : (cs.takeWhile isBlank ++ (Literal.number (cs.dropWhile isBlank)).1).dropWhile isBlank =
      (Literal.number (cs.dropWhile isBlank)).1 := by
    rw [List.dropWhile_append_of_pos blank]
    obtain ⟨d, source, same⟩ := List.exists_cons_of_ne_nil (Literal.number_taken starts)
    have split := Literal.number_append (cs.dropWhile isBlank)
    rw [same] at split ⊢
    rw [← split] at starts
    exact List.dropWhile_cons_of_neg (by simp [Literal.not_blank_of_startsNumber starts])
  have number (source : List Char) : Literal.numberText source = pointText source := by
    simp [Literal.numberText, pointText]
  rcases sign with rfl | rfl <;> simp [normalText, numeralText, tight, number]

theorem Literal.readString_normal {piece : Piece} (h : Literal.readString cs = .ok piece) :
    piece.kind = .literal ∧ piece.source.head? = some '\x27' ∧ piece.text.toList = piece.source := by
  unfold Literal.readString at h
  split at h
  · cases h
  · cases h
    exact ⟨rfl, rfl, String.toList_ofList⟩

theorem Literal.readSpecified_normal {word : List Char} (found : Literal.specifier? cs = some word)
    (h : Literal.readSpecified word cs = .ok piece) :
    piece.text.toList = specifiedText piece.source := by
  have passes := List.find?_some found
  obtain ⟨front, more, rfl, rfl⟩ := Literal.specifies_iff.1 passes
  obtain ⟨body, read, rfl⟩ := Except.map_eq_ok.1 h
  obtain ⟨_, quote, text⟩ := Literal.readString_normal read
  obtain ⟨source, same⟩ := List.head?_eq_some_iff.1 quote
  have bare : ∀ c ∈ front, c ≠ '\x27' := by
    have listed : ∀ word ∈ Literal.specifiers, '\x27' ∉ word := by decide
    rintro c mem rfl
    exact listed _ (List.mem_of_find?_eq_some found) (List.mem_map.2 ⟨_, mem, rfl⟩)
  have length : (lowerChars front).length = front.length := List.length_map ..
  simp only [specifiedText, length, List.take_left, same, String.toList_ofList]
  rw [List.takeWhile_append_of_pos (by simpa using bare),
    List.dropWhile_append_of_pos (by simpa using bare)]
  simp

theorem Literal.read?_normal {operand : Bool}
    (h : Literal.read? operand (c :: cs) = some (.ok piece)) (marks : Nat) :
    piece.text.toList = normalText piece.kind marks piece.source := by
  unfold Literal.read? at h
  split at h
  · obtain ⟨kind, quote, text⟩ := Literal.readString_normal (Option.some.inj h)
    rw [kind, normalText, if_pos quote, text]
  split at h
  case h_1 word found =>
    have kind := Literal.readSpecified_kind (Option.some.inj h)
    rw [kind]
    exact Literal.readSpecified_normal found (Option.some.inj h)
  split at h
  case isTrue starts =>
    cases h
    exact Literal.readNumber_normal starts marks
  split at h
  · obtain ⟨signed, found, same⟩ := Option.map_eq_some_iff.1 h
    cases same
    rw [Literal.readSigned?_kind found]
    exact Literal.readSigned?_normal found marks
  · cases h

theorem Symbol.read_normal (h : Symbol.read c cs = .ok piece) (marks : Nat) :
    piece.text.toList = normalText piece.kind marks piece.source := by
  have plain {kind : Kind} (mem : kind ∈ [Kind.operator, .openParen, .closeParen, .openBracket,
      .closeBracket, .comma, .dot]) (slice : List Char) : normalText kind marks slice = slice := by
    simp only [List.mem_cons, List.not_mem_nil, or_false] at mem
    rcases mem with rfl | rfl | rfl | rfl | rfl | rfl | rfl <;> rfl
  unfold Symbol.read at h
  split at h
  case h_1 kind found =>
    cases h
    have listed : kind ∈ [Kind.operator, .openParen, .closeParen, .openBracket, .closeBracket, .comma,
        .dot] := by
      unfold Symbol.punctuation? at found
      revert found
      repeat' split
      all_goals rintro ⟨⟩ <;> decide
    simp [Piece.verbatim, plain listed]
  case h_2 =>
    split at h
    · cases h
      simp [Piece.verbatim, normalText]
    · split at h <;> cases h
      simp [Piece.verbatim, normalText]

end Lexeme

/-- A piece has the normal form of what it takes as its text. -/
theorem Piece.read_normal {previous : Option Token} {ordinal : Nat} {c : Char} {cs : List Char}
    {piece : Piece} (h : Piece.read previous ordinal c cs = .ok piece) :
    piece.text.toList = normalText piece.kind (Scan.ordinalAfter ordinal piece) piece.source := by
  rcases read_cases h with literal | ⟨_, parameter | ⟨_, name | ⟨_, symbol⟩⟩⟩
  · exact Lexeme.Literal.read?_normal literal _
  · exact Lexeme.Name.readParameter?_normal parameter
  · exact Lexeme.Name.read?_normal name _
  · exact Lexeme.Symbol.read_normal symbol _

end SqlQuery
