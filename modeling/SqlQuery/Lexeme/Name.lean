import SqlQuery.Keyword
import SqlQuery.Lexeme.Piece
import SqlQuery.Text.Quoted

/-!
Names, keywords, the wildcard and parameters.
-/

namespace SqlQuery.Lexeme.Name

open Text

/-- The bare word at the front. -/
def word (cs : List Char) : List Char := cs.takeWhile isWordChar

def afterWord (cs : List Char) : List Char := cs.dropWhile isWordChar

theorem word_append (cs : List Char) : word cs ++ afterWord cs = cs :=
  List.takeWhile_append_dropWhile

/-- A quoted name after its opening delimiter, and the rest. The closing one is doubled inside. -/
def quoted? (close : Char) : List Char → Option (List Char × List Char)
  | [] => none
  | [c] => if c == close then some ([], []) else none
  | c :: d :: cs =>
    if c == close then
      if d == close then (quoted? close cs).map fun (name, rest) => (close :: name, rest)
      else some ([], d :: cs)
    else (quoted? close (d :: cs)).map fun (name, rest) => (c :: name, rest)

def readQuoted (opening close : Char) (cs : List Char) : Except Fault Piece :=
  match quoted? close cs with
  | none => .error (.unclosedIdentifier close)
  | some (name, rest) =>
    .ok ⟨.identifier, String.ofList name, opening :: doubled close name ++ [close], rest⟩

/--
The longest keyword that continues the phrase with words of the text: its text, what it takes and
the rest. Blanks alone may stand between its words.
-/
def longerKeyword? (phrase : String) (cs : List Char) : Option (String × List Char × List Char) :=
  if Keyword.isExtendable phrase then
    let gap := cs.takeWhile isBlank
    let tail := cs.dropWhile isBlank
    let next := word tail
    let rest := afterWord tail
    if next = [] then none
    else
      let longer := phrase ++ " " ++ String.ofList (lowerChars next)
      match longerKeyword? longer rest with
      | some (keyword, taken, left) => some (keyword, gap ++ next ++ taken, left)
      | none => if Keyword.isComplete longer then some (longer, gap ++ next, rest) else none
  else none
termination_by cs.length
decreasing_by
  have split := congrArg List.length (word_append (cs.dropWhile isBlank))
  have shorter := (List.dropWhile_suffix isBlank (l := cs)).length_le
  have taken : 0 < (word (cs.dropWhile isBlank)).length := by
    apply List.length_pos_iff.2
    assumption
  simp only [List.length_append] at split
  omega

/-- A word is a keyword as far as the longest keyword goes, and otherwise a name. -/
def readWord (cs : List Char) : Piece :=
  let name := word cs
  let rest := afterWord cs
  let phrase := String.ofList (lowerChars name)
  match longerKeyword? phrase rest with
  | some (keyword, taken, left) => ⟨.command, keyword, name ++ taken, left⟩
  | none =>
    if Keyword.isComplete phrase then ⟨.command, phrase, name, rest⟩
    else .verbatim .identifier name rest

/-- `wildcard` admits a star and `bracket` a name in square brackets. -/
def read? (wildcard bracket : Bool) : List Char → Option (Except Fault Piece)
  | [] => none
  | c :: cs =>
    if c == '*' && wildcard then some (.ok (.verbatim .identifier ['*'] cs))
    else if c == '\x60' || c == '\x22' then some (readQuoted c c cs)
    else if c == '[' && bracket then some (readQuoted c ']' cs)
    else if isDelimiter c then none
    else some (.ok (readWord (c :: cs)))

/-- A parameter: `?`, named by its number in order, or a mark with a word after it. -/
def readParameter? (ordinal : Nat) : List Char → Option Piece
  | [] => none
  | c :: cs =>
    if c == '?' then some ⟨.parameter, toString (ordinal + 1), ['?'], cs⟩
    else if (c == ':' || c == '$' || c == '@') && cs.head?.any isWordChar then
      some ⟨.parameter, String.ofList (word cs), c :: word cs, afterWord cs⟩
    else none

theorem quoted?_append {close : Char} {cs name rest : List Char}
    (h : quoted? close cs = some (name, rest)) : doubled close name ++ close :: rest = cs := by
  induction cs using quoted?.induct close generalizing name with
  | case1 => simp [quoted?] at h
  | case2 c found =>
    simp only [quoted?, found, if_true, Option.some.injEq, Prod.mk.injEq] at h
    obtain ⟨rfl, rfl⟩ := h
    simpa [doubled] using (beq_iff_eq.1 found).symm
  | case3 c apart => simp [quoted?, apart] at h
  | case4 c d cs here twice ih =>
    simp only [quoted?, here, twice, if_true] at h
    obtain ⟨⟨n, r⟩, found, eq⟩ := Option.map_eq_some_iff.1 h
    cases eq
    have tail := ih found
    simp only [beq_iff_eq] at here twice
    subst here twice
    simpa [doubled] using tail
  | case5 c d cs here single =>
    simp only [quoted?, here, single, if_true] at h
    cases h
    simpa [doubled] using (beq_iff_eq.1 here).symm
  | case6 c d cs apart ih =>
    simp only [quoted?, apart] at h
    obtain ⟨⟨n, r⟩, found, eq⟩ := Option.map_eq_some_iff.1 h
    cases eq
    have tail := ih found
    have distinct : c ≠ close := by simpa using apart
    simpa [doubled, distinct] using tail

theorem readQuoted_splits {opening close : Char} {cs : List Char} {piece : Piece}
    (h : readQuoted opening close cs = .ok piece) : piece.Splits (opening :: cs) := by
  unfold readQuoted at h
  split at h
  · simp at h
  · rename_i found
    cases h
    simp [Piece.Splits, quoted?_append found]

theorem gap_word_append (cs : List Char) :
    cs.takeWhile isBlank ++ (word (cs.dropWhile isBlank) ++ afterWord (cs.dropWhile isBlank)) =
      cs := by
  rw [word_append, List.takeWhile_append_dropWhile]

theorem longerKeyword?_append {phrase keyword : String} {cs taken left : List Char}
    (h : longerKeyword? phrase cs = some (keyword, taken, left)) : taken ++ left = cs := by
  fun_induction longerKeyword? phrase cs generalizing keyword taken left with
  | case1 => simp at h
  | case2 phrase cs =>
    rename_i deeper ih
    cases h
    have split := gap_word_append cs
    rw [List.append_assoc, ih deeper, List.append_assoc]
    exact split
  | case3 phrase cs =>
    cases h
    have split := gap_word_append cs
    rw [List.append_assoc]
    exact split
  | case4 => simp at h
  | case5 => simp at h

theorem readWord_splits {c : Char} {cs : List Char} (h : isWordChar c) :
    (readWord (c :: cs)).Splits (c :: cs) := by
  have taken : word (c :: cs) ≠ [] := by simp [word, h]
  unfold readWord
  dsimp only
  split
  · rename_i found
    refine ⟨?_, by simp [taken]⟩
    rw [List.append_assoc, longerKeyword?_append found, word_append]
  · split
    · exact ⟨word_append _, taken⟩
    · exact ⟨word_append _, taken⟩

/-- A name or keyword takes some of the text and loses none. -/
theorem read?_splits {wildcard bracket : Bool} {cs : List Char} {piece : Piece}
    (h : read? wildcard bracket cs = some (.ok piece)) : piece.Splits cs := by
  unfold read? at h
  split at h
  · simp at h
  · split at h
    case isTrue star =>
      cases h
      simp only [Bool.and_eq_true, beq_iff_eq] at star
      simp [Piece.Splits, Piece.verbatim, star.1]
    case isFalse =>
      split at h
      case isTrue => exact readQuoted_splits (Option.some.inj h)
      case isFalse =>
        split at h
        case isTrue => exact readQuoted_splits (Option.some.inj h)
        case isFalse =>
          split at h
          · simp at h
          · rename_i delimiter
            cases h
            exact readWord_splits (by simpa [isWordChar] using delimiter)

theorem readParameter?_splits {ordinal : Nat} {cs : List Char} {piece : Piece}
    (h : readParameter? ordinal cs = some piece) : piece.Splits cs := by
  unfold readParameter? at h
  split at h
  · simp at h
  · split at h
    case isTrue mark =>
      cases h
      simp [Piece.Splits, beq_iff_eq.1 mark]
    case isFalse =>
      split at h
      · cases h
        simp [Piece.Splits, word_append]
      · simp at h

end SqlQuery.Lexeme.Name
