import SqlQuery.Lexeme.Scan
import SqlQuery.Proofs.Casing.Literal
import SqlQuery.Proofs.Spacing.Phrase

/-!
Names, keywords, parameters and symbols of a text in lowercase. Words are made lowercase before they
are compared with keywords, and the marks that tell pieces apart are no letters.
-/

namespace SqlQuery.Lexeme

open Text

namespace Name

theorem word_lower (cs : List Char) : word (lowerChars cs) = lowerChars (word cs) :=
  isWordChar_caseless.takeWhile cs

theorem afterWord_lower (cs : List Char) : afterWord (lowerChars cs) = lowerChars (afterWord cs) :=
  isWordChar_caseless.dropWhile cs

theorem quoted?_lower {close : Char} (other : close.isAlpha = false) (cs : List Char) :
    quoted? close (lowerChars cs) = (quoted? close cs).map lowerSplit := by
  have same : close.toLower = close := toLower_of_other other
  induction cs using quoted?.induct close with
  | case1 => rfl
  | case2 c found =>
    have found' : c.toLower == close := by rwa [toLower_beq other]
    simp [quoted?, found, found', lowerSplit]
  | case3 c apart =>
    have apart' : ¬ (c.toLower == close) = true := by rwa [toLower_beq other]
    simp [quoted?, apart, apart']
  | case4 c d cs here twice ih =>
    simp only [lowerChars_cons, quoted?, toLower_beq other, here, twice, if_true, ih]
    cases quoted? close cs with
    | none => rfl
    | some split => simp [lowerSplit, same]
  | case5 c d cs here single =>
    simp [quoted?, toLower_beq other, here, single, lowerSplit]
  | case6 c d cs apart ih =>
    simp only [lowerChars_cons] at ih
    simp only [lowerChars_cons, quoted?, toLower_beq other, apart, ih]
    cases quoted? close (d :: cs) <;> rfl

theorem doubled_lower {mark : Char} (other : mark.isAlpha = false) (cs : List Char) :
    doubled mark (lowerChars cs) = lowerChars (doubled mark cs) := by
  induction cs with
  | nil => rfl
  | cons c cs ih =>
    simp only [doubled] at ih
    simp only [doubled, lowerChars_cons, List.flatMap_cons, toLower_beq other, ih,
      lowerChars_append]
    split <;> rfl

theorem readQuoted_lower {opening close : Char} (first : opening.isAlpha = false)
    (last : close.isAlpha = false) (cs : List Char) :
    readQuoted opening close (lowerChars cs) = (readQuoted opening close cs).map Piece.lower := by
  have starts : opening.toLower = opening := toLower_of_other first
  have ends : close.toLower = close := toLower_of_other last
  unfold readQuoted
  rw [quoted?_lower last]
  cases quoted? close cs with
  | none => rfl
  | some split =>
    have source : lowerChars (opening :: doubled close split.1 ++ [close]) =
        opening :: doubled close (lowerChars split.1) ++ [close] := by
      simp [starts, ends, doubled_lower last]
    refine congrArg Except.ok (Eq.symm ?_)
    rw [Piece.lower_ofList rfl, source]

/-- A keyword of the text, what it takes and what it leaves, in lowercase. -/
def lowerFound (found : String × List Char × List Char) : String × List Char × List Char :=
  (found.1, lowerSplit found.2)

theorem next_lower (cs : List Char) : next (lowerChars cs) = lowerChars (next cs) := by
  rw [next, isBlank_caseless.dropWhile, word_lower, next]

theorem afterNext_lower (cs : List Char) :
    afterNext (lowerChars cs) = lowerChars (afterNext cs) := by
  rw [afterNext, isBlank_caseless.dropWhile, afterWord_lower, afterNext]

theorem longer_lower (phrase : String) (w : List Char) :
    longer phrase (lowerChars w) = longer phrase w := by
  rw [longer, lowerChars_lowerChars, longer]

/-- One more word of a phrase. -/
theorem longerKeyword?_lower_of {phrase : String} {cs : List Char}
    (extendable : Keyword.isExtendable phrase = true) (more : next cs ≠ [])
    (later : longerKeyword? (longer phrase (next cs)) (lowerChars (afterNext cs)) =
      (longerKeyword? (longer phrase (next cs)) (afterNext cs)).map lowerFound) :
    longerKeyword? phrase (lowerChars cs) = (longerKeyword? phrase cs).map lowerFound := by
  have more' : next (lowerChars cs) ≠ [] := by
    rw [next_lower, lowerChars]
    exact List.map_eq_nil_iff.not.2 more
  rw [longerKeyword?_goes extendable more', longerKeyword?_goes extendable more, next_lower,
    afterNext_lower, longer_lower, later, isBlank_caseless.takeWhile, Option.map_or, Option.map_map,
    Option.map_map]
  congr 1
  · congr 1
    funext found
    simp [lowerFound, lowerSplit]
  · split <;> simp [lowerFound, lowerSplit]

theorem longerKeyword?_lower (phrase : String) (cs : List Char) :
    longerKeyword? phrase (lowerChars cs) = (longerKeyword? phrase cs).map lowerFound := by
  induction phrase, cs using longerKeyword?.induct with
  | case1 phrase cs _ tail word ended =>
    have ended' : next (lowerChars cs) = [] := by
      rw [next_lower]
      exact congrArg lowerChars ended
    rw [longerKeyword?_ended ended', longerKeyword?_ended ended]
    rfl
  | case2 phrase cs extendable _ _ _ more _ _ _ _ _ later =>
    exact longerKeyword?_lower_of extendable more later
  | case3 phrase cs extendable _ _ _ more _ _ _ later =>
    exact longerKeyword?_lower_of extendable more later
  | case4 phrase cs extendable _ _ _ more _ _ _ later =>
    exact longerKeyword?_lower_of extendable more later
  | case5 phrase cs alone =>
    rw [longerKeyword?_alone (by simpa using alone), longerKeyword?_alone (by simpa using alone)]
    rfl

theorem readWord_lower (cs : List Char) : readWord (lowerChars cs) = (readWord cs).lower := by
  unfold readWord
  simp only [word_lower, afterWord_lower, lowerChars_lowerChars, longerKeyword?_lower]
  cases longerKeyword? (String.ofList (lowerChars (word cs))) (afterWord cs) with
  | some found => simp [lowerFound, lowerSplit, Piece.lower, Token.lower, Kind.isFixed]
  | none =>
    rw [Option.map_none]
    dsimp only
    split
    · simp [Piece.lower, Token.lower, Kind.isFixed]
    · exact (Piece.lower_verbatim rfl _ _).symm

/-- The same name or keyword is read in lowercase, or the same fault met. -/
theorem read?_lower (wildcard bracket : Bool) (cs : List Char) :
    read? wildcard bracket (lowerChars cs) =
      (read? wildcard bracket cs).map (Except.map Piece.lower) := by
  cases cs with
  | nil => rfl
  | cons c cs =>
    simp only [lowerChars_cons, read?]
    rw [toLower_beq rfl, toLower_beq rfl, toLower_beq rfl, toLower_beq rfl, isDelimiter_caseless]
    split
    · exact congrArg (some ∘ Except.ok) (Piece.lower_verbatim rfl ['*'] cs).symm
    split
    case isTrue mark =>
      have other : c.isAlpha = false := by
        rcases Bool.or_eq_true_iff.1 mark with mark | mark <;> rw [beq_iff_eq.1 mark] <;> rfl
      rw [toLower_of_other other, readQuoted_lower other other]
      rfl
    split
    case isTrue mark =>
      obtain ⟨opens, _⟩ := Bool.and_eq_true_iff.1 mark
      rw [beq_iff_eq.1 opens]
      exact congrArg some (readQuoted_lower rfl rfl cs)
    split
    · rfl
    · exact congrArg (some ∘ Except.ok) (readWord_lower (c :: cs))

/-- Where no name begins there is a delimiter, and so no letter. -/
theorem not_alpha_of_unread {wildcard bracket : Bool} {c : Char} {cs : List Char}
    (unread : read? wildcard bracket (c :: cs) = none) : c.isAlpha = false := by
  have delimiter : isDelimiter c = true := by
    by_contra plain
    simp only [read?, plain] at unread
    split at unread
    · cases unread
    split at unread
    · cases unread
    split at unread <;> cases unread
  by_contra letter
  rw [Bool.not_eq_false] at letter
  have plain := isWordChar_of (c := c) (by simp [isAlphanum, letter])
  rw [isWordChar, delimiter] at plain
  cases plain

theorem readParameter?_lower (ordinal : Nat) (cs : List Char) :
    readParameter? ordinal (lowerChars cs) = (readParameter? ordinal cs).map Piece.lower := by
  cases cs with
  | nil => rfl
  | cons c cs =>
    simp only [lowerChars_cons, readParameter?, isWordChar_caseless.head, word_lower,
      afterWord_lower]
    rw [toLower_beq rfl, toLower_beq rfl, toLower_beq rfl, toLower_beq rfl]
    split
    · rw [Option.map_some, Piece.lower, Token.lower_text rfl, lower_toString]
      rfl
    split
    · rw [Option.map_some, Piece.lower_ofList rfl]
      rfl
    · rfl

end Name

end SqlQuery.Lexeme
