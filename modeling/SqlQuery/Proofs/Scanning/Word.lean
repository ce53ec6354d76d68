import Mathlib.Data.Bool.AllAny
import SqlQuery.Proofs.Keyword.Letters
import SqlQuery.Proofs.Scanning.Step
import SqlQuery.Proofs.Written.Tokens

/-!
Words are scanned as they are written: bare names, keywords and phrases, and names in quotes. A word
ends where a boundary follows it, and is no part of a longer keyword unless the next word goes on
with one.
-/

namespace SqlQuery

/-- What may stand directly after a word. -/
def boundaryChars : List Char := [' ', ',', '(', ')', '.', '[', ']', ':']

def Boundary (cs : List Char) : Prop := ∀ c ∈ cs.head?, c ∈ boundaryChars

namespace Boundary

variable {cs : List Char} {c : Char}

theorem nil : Boundary [] := by
  intro c head
  cases head

theorem cons (mem : c ∈ boundaryChars) (cs : List Char) : Boundary (c :: cs) := by
  intro d head
  obtain rfl : c = d := by simpa using head
  exact mem

theorem not_word (h : Boundary cs) : ∀ c ∈ cs.head?, Text.isWordChar c = false := by
  have plain : ∀ c ∈ boundaryChars, Text.isWordChar c = false := List.all_iff_forall_prop.1 (by decide)
  exact fun c head => plain c (h c head)

theorem ne (h : Boundary cs) (other : c ∉ boundaryChars) : cs.head? ≠ some c :=
  fun head => other (h c head)

end Boundary

/-- The text of a word: no delimiter stands in it, and it begins like a word. -/
structure IsWordText (w : List Char) : Prop where
  chars : ∀ c ∈ w, Text.isWordChar c = true
  start : ∃ c cs, w = c :: cs ∧ c.isDigit = false ∧ c ≠ '$'

namespace Lexeme.Name

variable {w cs : List Char}

theorem word_of_boundary (chars : ∀ c ∈ w, Text.isWordChar c = true) (boundary : Boundary cs) :
    word (w ++ cs) = w ∧ afterWord (w ++ cs) = cs := by
  have stop : cs.takeWhile Text.isWordChar = [] ∧ cs.dropWhile Text.isWordChar = cs := by
    cases cs with
    | nil => exact ⟨rfl, rfl⟩
    | cons c cs => simp [boundary.not_word c rfl]
  have all : w.all Text.isWordChar = true := List.all_eq_true.2 chars
  constructor
  · rw [word, List.takeWhile_append_of_pos chars, stop.1, List.append_nil]
  · rw [afterWord, List.dropWhile_append_of_pos chars, stop.2]

end Lexeme.Name

theorem eq_of_toLower {c d : Char} (h : c.toLower = d) (other : d.isLower = false) : c = d := by
  delta Char.toLower at h
  split at h
  · rename_i upper
    subst h
    exfalso
    delta Char.isLower at other
    simp only [Bool.and_eq_false_iff, decide_eq_false_iff_not] at other
    revert other
    simp [UInt32.le_iff_toNat_le] at upper ⊢
    omega
  · exact h

/-- A specifier has a quote or an ampersand in second place. -/
theorem specifier?_none {c : Char} {cs : List Char} (quote : cs.head? ≠ some '\x27')
    (ampersand : cs.head? ≠ some '&') : Lexeme.Literal.specifier? (c :: cs) = none := by
  cases cs with
  | nil => simp [Lexeme.Literal.specifier?, Lexeme.Literal.specifiers]
  | cons d cs =>
    have low : d.toLower ≠ '&' := by
      intro same
      obtain rfl := eq_of_toLower same (by decide)
      exact ampersand rfl
    have other : d ≠ '\x27' := by simpa using quote
    simp [Lexeme.Literal.specifier?, Lexeme.Literal.specifiers, Text.lowerChars, low, other]

namespace IsWordText

variable {w cs : List Char}

theorem ne_of_wordChar {c d : Char} (h : Text.isWordChar c = true)
    (delimiter : Text.isWordChar d = false) : c ≠ d := by
  rintro rfl
  rw [h] at delimiter
  cases delimiter

/-- No quote or ampersand stands in second place. -/
theorem second (h : IsWordText w) (boundary : Boundary cs) {d : Char}
    (delimiter : Text.isWordChar d = false) (other : d ∉ boundaryChars) :
    (w ++ cs).tail.head? ≠ some d := by
  obtain ⟨c, ws, rfl, _⟩ := h.start
  cases ws with
  | nil => exact boundary.ne other
  | cons e ws =>
    have plain := ne_of_wordChar (h.chars e (by simp)) delimiter
    simpa using plain

theorem literal_none (h : IsWordText w) (boundary : Boundary cs) (operand : Bool) :
    Lexeme.Literal.read? operand (w ++ cs) = none := by
  have quote := h.second boundary (d := '\x27') (by decide) (by decide)
  have ampersand := h.second boundary (d := '&') (by decide) (by decide)
  obtain ⟨c, ws, rfl, digit, _⟩ := h.start
  have isWord := h.chars c List.mem_cons_self
  have first : c ≠ '\x27' := ne_of_wordChar isWord (by decide)
  have point : c ≠ '.' := ne_of_wordChar isWord (by decide)
  have plus : c ≠ '+' := ne_of_wordChar isWord (by decide)
  have minus : c ≠ '-' := ne_of_wordChar isWord (by decide)
  have specifier : Lexeme.Literal.specifier? (c :: (ws ++ cs)) = none :=
    specifier?_none quote ampersand
  simp [Lexeme.Literal.read?, first, specifier, Lexeme.Literal.startsNumber, digit, point,
    Lexeme.Literal.readSigned?, plus, minus]

theorem parameter_none (h : IsWordText w) (ordinal : Nat) :
    Lexeme.Name.readParameter? ordinal (w ++ cs) = none := by
  obtain ⟨c, ws, rfl, _, dollar⟩ := h.start
  have isWord := h.chars c List.mem_cons_self
  have mark : c ≠ '?' := ne_of_wordChar isWord (by decide)
  have colon : c ≠ ':' := ne_of_wordChar isWord (by decide)
  have at_ : c ≠ '@' := ne_of_wordChar isWord (by decide)
  simp [Lexeme.Name.readParameter?, mark, colon, at_, dollar]

theorem name_read (h : IsWordText w) (wildcard bracket : Bool) :
    Lexeme.Name.read? wildcard bracket (w ++ cs) = some (.ok (Lexeme.Name.readWord (w ++ cs))) := by
  obtain ⟨c, ws, rfl, _⟩ := h.start
  have isWord := h.chars c List.mem_cons_self
  have star : c ≠ '*' := ne_of_wordChar isWord (by decide)
  have tick : c ≠ '\x60' := ne_of_wordChar isWord (by decide)
  have quote : c ≠ '\x22' := ne_of_wordChar isWord (by decide)
  have opening : c ≠ '[' := ne_of_wordChar isWord (by decide)
  have delimiter : Text.isDelimiter c = false := by simpa [Text.isWordChar] using isWord
  simp [Lexeme.Name.read?, star, tick, quote, opening, delimiter]

/-- A word is read as far as a keyword that begins with it goes. -/
theorem heads (h : IsWordText w) (boundary : Boundary cs) (previous : Option Token) :
    (Lexeme.Name.readWord (w ++ cs)).Heads previous (w ++ cs) := by
  have literal := h.literal_none boundary (previous.all Token.expectsOperand)
  have parameter (ordinal : Nat) : Lexeme.Name.readParameter? ordinal (w ++ cs) = none :=
    h.parameter_none ordinal
  have name : Lexeme.Name.read? (previous.all Token.precedesWildcard)
      (!previous.any fun l => l.isCommand "array") (w ++ cs) =
        some (.ok (Lexeme.Name.readWord (w ++ cs))) := h.name_read _ _
  obtain ⟨c, ws, rfl, _⟩ := h.start
  have isWord := h.chars c List.mem_cons_self
  have blank : Text.isBlank c = false := by
    simp only [Text.isWordChar, Text.isDelimiter, Bool.not_eq_true', Bool.or_eq_false_iff] at isWord
    exact isWord.1.1
  have slash : c ≠ '/' := ne_of_wordChar isWord (by decide)
  have minus : c ≠ '-' := ne_of_wordChar isWord (by decide)
  exact .mk blank (startsComment_of_ne slash minus) fun ordinal =>
    Piece.read_name literal (parameter ordinal) name

end IsWordText

namespace Lexeme.Name

open Text

variable {phrase : String} {w cs : List Char}

theorem longerKeyword?_alone (alone : Keyword.isExtendable phrase = false) :
    longerKeyword? phrase cs = none := by
  rw [longerKeyword?]
  exact if_neg (by simp [alone])

/-- No word follows that could go on with the phrase. -/
theorem longerKeyword?_boundary (next : ∀ c ∈ (cs.dropWhile Text.isBlank).head?,
    Text.isWordChar c = false) : longerKeyword? phrase cs = none := by
  have none : word (cs.dropWhile Text.isBlank) = [] := by
    cases tail : cs.dropWhile Text.isBlank with
    | nil => rfl
    | cons c rest => simp [word, next c (by simp [tail])]
  rw [longerKeyword?]
  split
  · exact if_pos none
  · rfl

theorem longerKeyword?_mark {c : Char} (plain : isBlank c = false) (mark : isWordChar c = false)
    (cs : List Char) : longerKeyword? phrase (c :: cs) = none := by
  refine longerKeyword?_boundary ?_
  rw [List.dropWhile_cons_of_neg (by simp [plain])]
  rintro _ ⟨⟩
  exact mark

/-- The next word is read as a part of the phrase if a keyword can still come of it. -/
theorem longerKeyword?_next (h : IsWordText w) (boundary : Boundary cs)
    (extendable : Keyword.isExtendable phrase = true) : longerKeyword? phrase (' ' :: (w ++ cs)) =
      let longer := phrase ++ " " ++ String.ofList (Text.lowerChars w)
      match longerKeyword? longer cs with
      | some (keyword, taken, left) => some (keyword, ' ' :: w ++ taken, left)
      | none => if Keyword.isComplete longer then some (longer, ' ' :: w, cs) else none := by
  obtain ⟨c, ws, rfl, _⟩ := h.start
  have blank : Text.isBlank c = false := by
    have isWord := h.chars c List.mem_cons_self
    simp only [Text.isWordChar, Text.isDelimiter, Bool.not_eq_true', Bool.or_eq_false_iff] at isWord
    exact isWord.1.1
  have gap : (' ' :: (c :: ws ++ cs)).takeWhile Text.isBlank = [' '] ∧
      (' ' :: (c :: ws ++ cs)).dropWhile Text.isBlank = c :: ws ++ cs := by
    have space : Text.isBlank ' ' = true := by decide
    simp [space, blank]
  obtain ⟨taken, left⟩ := word_of_boundary h.chars boundary
  rw [longerKeyword?, if_pos extendable]
  simp only [gap.1, gap.2, taken, left]
  rw [if_neg (List.cons_ne_nil c ws)]
  rfl

/-- The word at the front, in lowercase. -/
def firstWord (cs : List Char) : String := String.ofList (lowerChars (word cs))

/-- The next word makes no keyword with the phrase. -/
theorem longerKeyword?_apart {c : Char} (blank : isBlank c = false)
    (apart : ∀ longer, longer = phrase ++ " " ++ firstWord (c :: cs) →
      Keyword.isComplete longer = false ∧ Keyword.isExtendable longer = false) :
    longerKeyword? phrase (' ' :: c :: cs) = none := by
  obtain ⟨complete, extendable⟩ := apart _ rfl
  have space : isBlank ' ' = true := by decide
  have tail : (' ' :: c :: cs).dropWhile isBlank = c :: cs := by simp [space, blank]
  unfold firstWord at complete extendable
  rw [longerKeyword?]
  simp only [tail, longerKeyword?_alone extendable, complete, Bool.false_eq_true, if_false,
    ite_self]

/-- Words in a row go on with the letters of a phrase, each with what comes before it. -/
def continues (letters : List Char) : List (List Char) → Bool
  | [] => true
  | w :: ws => Keyword.goesOn letters && continues (letters ++ ' ' :: lowerChars w) ws

def joined (letters : List Char) (ws : List (List Char)) : List Char :=
  ws.foldl (fun letters w => letters ++ ' ' :: lowerChars w) letters

theorem ofList_longer (letters w : List Char) : String.ofList letters ++ " " ++ String.ofList w =
    String.ofList (letters ++ ' ' :: w) := by
  rw [← String.toList_inj]
  simp [String.toList_append]

theorem spaced_boundary (ws : List (List Char)) (boundary : Boundary cs) :
    Boundary (ws.flatMap (' ' :: ·) ++ cs) := by
  cases ws with
  | nil => exact boundary
  | cons w ws => exact .cons (by decide) _

theorem longerKeyword?_words {letters : List Char} (ws : List (List Char)) (some : ws ≠ [])
    (words : ∀ w ∈ ws, IsWordText w) (boundary : Boundary cs) (known : continues letters ws = true)
    (complete : Keyword.isComplete (String.ofList (joined letters ws)) = true)
    (alone : longerKeyword? (String.ofList (joined letters ws)) cs = none) :
    longerKeyword? (String.ofList letters) (ws.flatMap (' ' :: ·) ++ cs) =
      Option.some (String.ofList (joined letters ws), ws.flatMap (' ' :: ·), cs) := by
  induction ws generalizing letters with
  | nil => exact absurd rfl some
  | cons w ws ih =>
    simp only [continues, Bool.and_eq_true] at known
    have extendable : Keyword.isExtendable (String.ofList letters) = true := by
      rw [Keyword.isExtendable_ofList, known.1]
    have next := longerKeyword?_next (words w List.mem_cons_self) (spaced_boundary ws boundary)
      extendable
    have split : (w :: ws).flatMap (' ' :: ·) ++ cs =
        ' ' :: (w ++ (ws.flatMap (' ' :: ·) ++ cs)) := by simp
    rw [split, next]
    simp only [ofList_longer]
    cases ws with
    | nil =>
      have ended : longerKeyword? (String.ofList (letters ++ ' ' :: lowerChars w)) cs = none := alone
      have known : Keyword.isComplete (String.ofList (letters ++ ' ' :: lowerChars w)) = true :=
        complete
      simp only [List.flatMap_nil, List.nil_append, ended, known, if_true]
      simp [joined]
    | cons v vs =>
      have later := ih (List.cons_ne_nil v vs) (fun u mem => words u (List.mem_cons_of_mem w mem))
        known.2 complete alone
      simp only [later]
      simp [joined]

theorem readWord_name (h : IsWordText w) (boundary : Boundary cs)
    (plain : Keyword.isComplete (String.ofList (Text.lowerChars w)) = false)
    (alone : longerKeyword? (String.ofList (Text.lowerChars w)) cs = none) :
    readWord (w ++ cs) = ⟨.identifier, String.ofList w, w, cs⟩ := by
  obtain ⟨taken, left⟩ := word_of_boundary h.chars boundary
  unfold readWord
  simp only [taken, left, alone, plain, Bool.false_eq_true, if_false]
  rfl

/-- The first word of a keyword is read with the others. -/
theorem readWord_keyword {ws : List (List Char)} (h : IsWordText w)
    (words : ∀ v ∈ ws, IsWordText v) (boundary : Boundary cs)
    (known : continues (lowerChars w) ws = true)
    (complete : Keyword.isComplete (String.ofList (joined (lowerChars w) ws)) = true)
    (alone : longerKeyword? (String.ofList (joined (lowerChars w) ws)) cs = none) :
    readWord (w ++ (ws.flatMap (' ' :: ·) ++ cs)) = ⟨.command,
      String.ofList (joined (lowerChars w) ws), w ++ ws.flatMap (' ' :: ·), cs⟩ := by
  obtain ⟨taken, left⟩ := word_of_boundary h.chars (spaced_boundary ws boundary)
  unfold readWord
  simp only [taken, left]
  cases ws with
  | nil =>
    have ended : longerKeyword? (String.ofList (Text.lowerChars w)) cs = none := alone
    have whole : Keyword.isComplete (String.ofList (Text.lowerChars w)) = true := complete
    simp only [List.flatMap_nil, List.nil_append, ended, whole, if_true, List.append_nil]
    rfl
  | cons v vs =>
    simp only [longerKeyword?_words (v :: vs) (List.cons_ne_nil v vs) words boundary known complete
      alone]

end Lexeme.Name

/-- A word that no phrase has behind its first one ends every phrase. -/
theorem Lexeme.Name.longerKeyword?_beside {phrase : String} {word cs : List Char} {c : Char}
    (blank : Text.isBlank c = false) (first : firstWord (c :: cs) = String.ofList word)
    (apart : ∀ phrase ∈ Keyword.phraseLetters, ¬ ' ' :: word <:+: phrase) :
    longerKeyword? phrase (' ' :: c :: cs) = none := by
  refine longerKeyword?_apart blank ?_
  rintro _ rfl
  rw [first]
  exact Keyword.apart_of_letters apart phrase

theorem Lexeme.Name.longerKeyword?_single {phrase : String} {cs : List Char}
    (single : phrase ∉ Keyword.beginnings) : longerKeyword? phrase cs = none :=
  longerKeyword?_alone (Keyword.not_extendable single)

def isWordText (w : List Char) : Bool :=
  w.all Text.isWordChar && w.head?.any fun c => !c.isDigit && c != '$'

theorem isWordText_of {w : List Char} (h : isWordText w = true) : IsWordText w := by
  simp only [isWordText, Bool.and_eq_true] at h
  obtain ⟨chars, start⟩ := h
  refine ⟨List.all_eq_true.1 chars, ?_⟩
  cases w with
  | nil => cases start
  | cons c cs =>
    simp only [List.head?_cons, Option.any_some, Bool.and_eq_true, Bool.not_eq_true',
      bne_iff_ne] at start
    exact ⟨c, cs, rfl, start⟩

theorem isWordText_iff {w : List Char} : isWordText w = true ↔ IsWordText w := by
  refine ⟨isWordText_of, fun word => ?_⟩
  obtain ⟨c, cs, rfl, notDigit, notDollar⟩ := word.start
  simp only [isWordText, Bool.and_eq_true, List.all_eq_true]
  exact ⟨word.chars, by simp [notDigit, notDollar]⟩

/-- The words of a keyword can be scanned one by one, and make it together. -/
def spellsKeyword (letters : List Char) : Bool :=
  match blankSplit letters with
  | [] => false
  | w :: ws => (w :: ws).all isWordText && letters == w ++ ws.flatMap (' ' :: ·) &&
      Lexeme.Name.continues (Text.lowerChars w) ws &&
      Lexeme.Name.joined (Text.lowerChars w) ws == letters

theorem keywords_spelled : ∀ letters ∈ Keyword.reservedLetters ++ Keyword.phraseLetters,
    spellsKeyword letters = true := by
  decide +kernel

theorem Scans.keyword {d : Dialect} {previous : Option Token} {text : String} {cs : List Char}
    {ts : List Token} (complete : Keyword.isComplete text = true) (boundary : Boundary cs)
    (alone : Lexeme.Name.longerKeyword? text cs = none)
    (later : Scans d (some ⟨.command, text⟩) cs ts) :
    Scans d previous (text.toList ++ cs) (⟨.command, text⟩ :: ts) := by
  obtain ⟨letters, mem, rfl⟩ := Keyword.isComplete_letters complete
  have spelled := keywords_spelled letters mem
  unfold spellsKeyword at spelled
  split at spelled
  · cases spelled
  rename_i w ws _
  simp only [Bool.and_eq_true, beq_iff_eq, List.all_cons, List.all_eq_true] at spelled
  obtain ⟨⟨⟨⟨first, others⟩, chars⟩, known⟩, same⟩ := spelled
  have word : IsWordText w := isWordText_of first
  have words : ∀ v ∈ ws, IsWordText v := fun v mem => isWordText_of (others v mem)
  have read := Lexeme.Name.readWord_keyword word words boundary known (by rwa [same])
    (by rwa [same])
  have front := word.heads (Lexeme.Name.spaced_boundary ws boundary) previous
  rw [read, same] at front
  have scanned : Scans d previous (w ++ (ws.flatMap (' ' :: ·) ++ cs))
      (⟨.command, String.ofList letters⟩ :: ts) := .next front nofun later
  rw [← List.append_assoc, ← chars] at scanned
  rwa [String.toList_ofList]

end SqlQuery
