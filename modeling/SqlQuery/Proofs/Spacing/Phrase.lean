import SqlQuery.Proofs.Scanning.Literal
import SqlQuery.Proofs.Spacing.Loose

/-!
Keyword phrases: how far a phrase goes depends on the words that come next, and not on the blanks
that stand in front of each of them.
-/

namespace SqlQuery

open Text

namespace Keyword

variable {phrase : String}

/-- No phrase has a digit in it. -/
theorem digit_free (h : isExtendable phrase = true ∨ isComplete phrase = true) :
    phrase.toList.any Char.isDigit = false := by
  have known : ∀ letters ∈ reservedLetters ++ phraseLetters, letters.any Char.isDigit = false := by
    decide +kernel
  rcases h with extendable | complete
  · rw [isExtendable_eq] at extendable
    obtain ⟨longer, mem, starts⟩ := List.any_eq_true.1 extendable
    obtain ⟨more, same⟩ := List.isPrefixOf_iff_prefix.1 starts
    have none := known longer (List.mem_append_right _ mem)
    rw [← same, List.append_assoc, List.any_append] at none
    exact (Bool.or_eq_false_iff.1 none).1
  · obtain ⟨letters, mem, rfl⟩ := isComplete_letters complete
    rw [String.toList_ofList]
    exact known letters mem

end Keyword

namespace Lexeme.Name

open Keyword

variable {cs cs' left left' rest rest' w v taken : List Char} {phrase keyword : String}
  {ws vs : List (List Char)}

/-- The word that comes after the blanks. -/
def next (cs : List Char) : List Char := word (cs.dropWhile isBlank)

def afterNext (cs : List Char) : List Char := afterWord (cs.dropWhile isBlank)

/-- The phrase with another word, in lowercase. -/
def longer (phrase : String) (v : List Char) : String :=
  phrase ++ " " ++ String.ofList (lowerChars v)

/-- The words as a phrase. -/
def asPhrase : List (List Char) → String
  | [] => ""
  | w :: ws => ws.foldl longer (String.ofList (lowerChars w))

theorem longerKeyword?_ended (ended : next cs = []) : longerKeyword? phrase cs = none := by
  rw [longerKeyword?]
  split
  · exact if_pos ended
  · rfl

/-- The longest keyword has a word more than the phrase, or is one itself. -/
theorem longerKeyword?_goes (extendable : isExtendable phrase = true) (some : next cs ≠ []) :
    longerKeyword? phrase cs =
      ((longerKeyword? (longer phrase (next cs)) (afterNext cs)).map fun found =>
        (found.1, cs.takeWhile isBlank ++ next cs ++ found.2.1, found.2.2)).or
      (if isComplete (longer phrase (next cs)) then
        Option.some (longer phrase (next cs), cs.takeWhile isBlank ++ next cs, afterNext cs)
      else none) := by
  unfold next at some
  rw [longerKeyword?, if_pos extendable]
  unfold longer next afterNext
  dsimp only
  rw [if_neg some]
  split
  case h_1 found =>
    rw [found]
    rfl
  case h_2 none =>
    rw [none]
    rfl

theorem toList_longer (phrase : String) (v : List Char) :
    (longer phrase v).toList = phrase.toList ++ ' ' :: lowerChars v := by
  simp [longer, String.toList_append]

theorem toList_foldl_longer (phrase : String) (vs : List (List Char)) :
    (vs.foldl longer phrase).toList = phrase.toList ++ vs.flatMap (' ' :: lowerChars ·) := by
  induction vs generalizing phrase with
  | nil => simp
  | cons v vs ih => rw [List.foldl_cons, ih, toList_longer, List.flatMap_cons, List.append_assoc]

theorem isExtendable_of_longer {v : List Char} (h : isExtendable (longer phrase v) = true) :
    isExtendable phrase = true := by
  obtain ⟨whole, mem, starts⟩ := List.any_eq_true.1 h
  refine List.any_eq_true.2 ⟨whole, mem, ?_⟩
  rw [List.isPrefixOf_iff_prefix, toList_longer] at starts
  rw [List.isPrefixOf_iff_prefix]
  refine List.IsPrefix.trans ⟨lowerChars v ++ [' '], ?_⟩ starts
  simp

/-- A phrase that no keyword goes on with is not lengthened into one that does. -/
theorem longerKeyword?_foldl_alone (alone : isExtendable phrase = false) (vs : List (List Char))
    (cs : List Char) : longerKeyword? (vs.foldl longer phrase) cs = none := by
  induction vs generalizing phrase with
  | nil => exact longerKeyword?_alone alone
  | cons v vs ih =>
    refine ih (Bool.eq_false_iff.2 fun extendable => ?_)
    rw [isExtendable_of_longer extendable] at alone
    cases alone

/-- The word starts with a digit. -/
def isNumeral (w : List Char) : Bool := w.head?.any Char.isDigit

theorem any_isDigit_of_numeral (h : isNumeral w = true) : (lowerChars w).any Char.isDigit = true := by
  obtain ⟨c, head, digit⟩ := (Option.any_eq_true ..).1 h
  obtain ⟨more, rfl⟩ := List.head?_eq_some_iff.1 head
  simp [lowerChars, toLower_digit digit, digit]

theorem longerKeyword?_of_digit (digit : phrase.toList.any Char.isDigit = true) (cs : List Char) :
    longerKeyword? phrase cs = none := by
  refine longerKeyword?_alone (Bool.eq_false_iff.2 fun extendable => ?_)
  rw [digit_free (.inl extendable)] at digit
  cases digit

/-- A number is no word of a phrase. -/
theorem longerKeyword?_numeral (numeral : isNumeral (next cs) = true) :
    longerKeyword? phrase cs = none := by
  have digit : (longer phrase (next cs)).toList.any Char.isDigit = true := by
    rw [toList_longer, List.any_append, List.any_cons, any_isDigit_of_numeral numeral, Bool.or_true,
      Bool.or_true]
  have some : next cs ≠ [] := by
    intro none
    rw [none] at numeral
    cases numeral
  have incomplete : isComplete (longer phrase (next cs)) = false := by
    refine Bool.eq_false_iff.2 fun complete => ?_
    rw [digit_free (.inr complete)] at digit
    cases digit
  cases extendable : isExtendable phrase with
  | false => exact longerKeyword?_alone extendable
  | true =>
    rw [longerKeyword?_goes extendable some, longerKeyword?_of_digit digit, incomplete]
    rfl

theorem toList_asPhrase (w : List Char) (ws : List (List Char)) :
    (asPhrase (w :: ws)).toList = lowerChars w ++ ws.flatMap (' ' :: lowerChars ·) := by
  rw [asPhrase, toList_foldl_longer, String.toList_ofList]

/-- No keyword goes on with words of which one is a number. -/
theorem longerKeyword?_of_numeral (h : ∃ w ∈ ws, isNumeral w = true) (cs : List Char) :
    longerKeyword? (asPhrase ws) cs = none := by
  obtain ⟨w, mem, numeral⟩ := h
  have digit := any_isDigit_of_numeral numeral
  refine longerKeyword?_of_digit ?_ cs
  cases ws with
  | nil => cases mem
  | cons v ws =>
    rw [toList_asPhrase, List.any_append, Bool.or_eq_true, List.any_flatMap]
    rcases List.mem_cons.1 mem with rfl | mem
    · exact .inl digit
    · refine .inr (List.any_eq_true.2 ⟨w, mem, ?_⟩)
      rw [List.any_cons, digit, Bool.or_true]

/-- The same keyword goes on with the phrase in both texts, or none does. -/
def Alike (phrase : String) (cs cs' : List Char) : Prop :=
  (longerKeyword? phrase cs').map Prod.fst = (longerKeyword? phrase cs).map Prod.fst

namespace Alike

theorem none_iff (h : Alike phrase cs cs') :
    longerKeyword? phrase cs' = none ↔ longerKeyword? phrase cs = none := by
  rw [← Option.map_eq_none_iff (f := Prod.fst), h, Option.map_eq_none_iff]

theorem of_none (none : longerKeyword? phrase cs = .none)
    (none' : longerKeyword? phrase cs' = .none) : Alike phrase cs cs' := by
  rw [Alike, none, none']

/-- The phrase grows by a word that the texts share. -/
theorem goes (same : next cs' = next cs)
    (later : Alike (longer phrase (next cs)) (afterNext cs) (afterNext cs')) :
    Alike phrase cs cs' := by
  by_cases ended : next cs = []
  · exact of_none (longerKeyword?_ended ended) (longerKeyword?_ended (same.trans ended))
  · cases extendable : isExtendable phrase with
    | false => exact of_none (longerKeyword?_alone extendable) (longerKeyword?_alone extendable)
    | true =>
      have ended' : next cs' ≠ [] := fun none => ended (same.symm.trans none)
      unfold Alike at later ⊢
      rw [longerKeyword?_goes extendable ended, longerKeyword?_goes extendable ended', same,
        Option.map_or, Option.map_or, Option.map_map, Option.map_map]
      congr 1
      split <;> rfl

end Alike

/-- The words stand at the front of the text with blanks alone around them, and what is left. -/
inductive Reaches : List Char → List (List Char) → List Char → Prop
  | here {cs : List Char} : Reaches cs [] cs
  | word {cs v left : List Char} {vs : List (List Char)} (reads : next cs = v) (some : v ≠ [])
      (later : Reaches (afterNext cs) vs left) : Reaches cs (v :: vs) left

/-- Where a comment comes after words of the first text, the same words of the second text are no
part of a keyword that goes on with the phrase beyond it. -/
def Unparted (phrase : String) (cs cs' : List Char) : Prop :=
  ∀ vs left left', Reaches cs vs left → Reaches cs' vs left' →
    startsComment (left.dropWhile isBlank) = true →
      longerKeyword? (vs.foldl longer phrase) left' = none

theorem Unparted.here (h : Unparted phrase cs cs')
    (comment : startsComment (cs.dropWhile isBlank) = true) : longerKeyword? phrase cs' = none :=
  h [] cs cs' .here .here comment

theorem Unparted.goes (h : Unparted phrase cs cs') (same : next cs' = next cs)
    (some : next cs ≠ []) : Unparted (longer phrase (next cs)) (afterNext cs) (afterNext cs') := by
  intro vs left left' reaches reaches' comment
  exact h _ left left' (.word rfl some reaches) (.word same some reaches') comment

/-- The words of a text that stand with blanks between them. -/
inductive Words : List Char → List (List Char) → Prop
  | last {w : List Char} (some : w ≠ []) (chars : ∀ c ∈ w, isWordChar c = true) : Words w [w]
  | cons {w blanks source : List Char} {ws : List (List Char)} (some : w ≠ [])
      (chars : ∀ c ∈ w, isWordChar c = true) (apart : blanks ≠ [])
      (blank : ∀ c ∈ blanks, isBlank c = true) (later : Words source ws) :
      Words (w ++ (blanks ++ source)) (w :: ws)

theorem Words.ne_nil {source : List Char} (h : Words source ws) : source ≠ [] := by
  cases h with
  | last some => exact some
  | cons some => exact List.append_ne_nil_of_left_ne_nil some _

theorem Words.exists_cons {source : List Char} (h : Words source ws) : ∃ v vs, ws = v :: vs := by
  cases h with
  | last => exact ⟨_, _, rfl⟩
  | cons => exact ⟨_, _, rfl⟩

section Next

variable {blanks : List Char}

theorem not_wordChar_of_blank {c : Char} (blank : isBlank c = true) : isWordChar c = false := by
  cases word : isWordChar c with
  | false => rfl
  | true => exact absurd blank (by simp [isWordChar_plain c word])

theorem ended_of_blanks (some : blanks ≠ []) (blank : ∀ c ∈ blanks, isBlank c = true)
    (cs : List Char) : (blanks ++ cs).head?.any isWordChar = false := by
  obtain ⟨b, blanks, rfl⟩ := List.exists_cons_of_ne_nil some
  exact not_wordChar_of_blank (blank b List.mem_cons_self)

theorem next_blanks (blank : ∀ c ∈ blanks, isBlank c = true) (cs : List Char) :
    next (blanks ++ cs) = next cs ∧ afterNext (blanks ++ cs) = afterNext cs := by
  constructor
  · rw [next, List.dropWhile_append_of_pos blank, next]
  · rw [afterNext, List.dropWhile_append_of_pos blank, afterNext]

/-- A word after blanks is the next one. -/
theorem next_word (some : w ≠ []) (chars : ∀ c ∈ w, isWordChar c = true)
    (ended : cs.head?.any isWordChar = false) (blank : ∀ c ∈ blanks, isBlank c = true) :
    (blanks ++ (w ++ cs)).takeWhile isBlank = blanks ∧ next (blanks ++ (w ++ cs)) = w ∧
      afterNext (blanks ++ (w ++ cs)) = cs := by
  have plain : (w ++ cs).head?.any isBlank = false := by
    obtain ⟨c, w, rfl⟩ := List.exists_cons_of_ne_nil some
    exact isWordChar_plain c (chars c List.mem_cons_self)
  obtain ⟨front, back⟩ := Prod.mk.inj (Literal.run_append_of blank plain)
  obtain ⟨taken, left⟩ := Prod.mk.inj (Literal.run_append_of chars ended)
  refine ⟨front, ?_, ?_⟩
  · rw [next, back]
    exact taken
  · rw [afterNext, back]
    exact left

theorem next_front (some : w ≠ []) (chars : ∀ c ∈ w, isWordChar c = true)
    (ended : cs.head?.any isWordChar = false) : next (w ++ cs) = w ∧ afterNext (w ++ cs) = cs :=
  (next_word some chars ended (List.forall_mem_nil _)).2

/-- No word comes next where a mark stands. -/
theorem next_mark {c : Char} (plain : isBlank c = false) (mark : isWordChar c = false)
    (cs : List Char) : next (c :: cs) = [] := by
  simp [next, word, plain, mark]

end Next

section Along

variable {blanks blanks' source : List Char}

theorem Alike.gap (blank : ∀ c ∈ blanks, isBlank c = true) (phrase : String) (cs : List Char) :
    Alike phrase cs (blanks ++ cs) := by
  obtain ⟨next₁, after₁⟩ := next_blanks blank cs
  refine .goes next₁ ?_
  rw [after₁]
  exact Eq.refl _

theorem Alike.spaced (h : Alike phrase cs cs') (blank : ∀ c ∈ blanks, isBlank c = true)
    (blank' : ∀ c ∈ blanks', isBlank c = true) : Alike phrase (blanks ++ cs) (blanks' ++ cs') :=
  calc (longerKeyword? phrase (blanks' ++ cs')).map Prod.fst
    _ = (longerKeyword? phrase cs').map Prod.fst := Alike.gap blank' phrase cs'
    _ = (longerKeyword? phrase cs).map Prod.fst := h
    _ = (longerKeyword? phrase (blanks ++ cs)).map Prod.fst := (Alike.gap blank phrase cs).symm

theorem reaches_blanks (blank : ∀ c ∈ blanks, isBlank c = true) :
    Reaches (blanks ++ cs) (v :: vs) left ↔ Reaches cs (v :: vs) left := by
  obtain ⟨next₁, after₁⟩ := next_blanks blank cs
  constructor
  · rintro (_ | ⟨reads, some, later⟩)
    rw [next₁] at reads
    rw [after₁] at later
    exact .word reads some later
  · rintro (_ | ⟨reads, some, later⟩)
    rw [← next₁] at reads
    rw [← after₁] at later
    exact .word reads some later

theorem Unparted.unspaced (h : Unparted phrase (blanks ++ cs) (blanks' ++ cs'))
    (blank : ∀ c ∈ blanks, isBlank c = true) (blank' : ∀ c ∈ blanks', isBlank c = true) :
    Unparted phrase cs cs' := by
  intro vs left left' reaches reaches' comment
  cases vs with
  | nil =>
    cases reaches
    cases reaches'
    rw [← List.dropWhile_append_of_pos blank] at comment
    exact (Alike.gap blank' phrase cs').none_iff.1 (h.here comment)
  | cons v vs =>
    rw [← reaches_blanks blank] at reaches
    rw [← reaches_blanks blank'] at reaches'
    exact h _ left left' reaches reaches' comment

/-- Words at the front are words that are reached. -/
theorem Words.reaches (h : Words source ws) (ended : rest.head?.any isWordChar = false)
    (later : Reaches rest vs left) : Reaches (source ++ rest) (ws ++ vs) left := by
  induction h with
  | last some chars =>
    obtain ⟨next₁, after₁⟩ := next_front some chars ended
    refine .word next₁ some ?_
    rwa [after₁]
  | cons some chars apart blank words ih =>
    rw [List.append_assoc, List.append_assoc]
    obtain ⟨next₁, after₁⟩ := next_front some chars (ended_of_blanks apart blank _)
    refine .word next₁ some ?_
    rw [after₁]
    obtain ⟨v, ws, same⟩ := words.exists_cons
    rw [same] at ih ⊢
    exact (reaches_blanks blank).2 ih

/-- No comment begins where a word does. -/
theorem startsComment_word (some : w ≠ []) (chars : ∀ c ∈ w, isWordChar c = true)
    (blank : ∀ c ∈ blanks, isBlank c = true) (cs : List Char) :
    startsComment ((blanks ++ (w ++ cs)).dropWhile isBlank) = false := by
  obtain ⟨c, w, rfl⟩ := List.exists_cons_of_ne_nil some
  have isWord := chars c List.mem_cons_self
  have plain : ¬ isBlank c = true := by simp [isWordChar_plain c isWord]
  rw [List.dropWhile_append_of_pos blank, List.cons_append, List.dropWhile_cons_of_neg plain]
  refine startsComment_of_ne ?_ ?_
  all_goals
    rintro rfl
    cases isWord

/-- A comment that is reached over words comes after the last of them. -/
theorem Words.of_reaches (h : Words source ws) (ended : rest.head?.any isWordChar = false)
    (blank : ∀ c ∈ blanks, isBlank c = true) (reaches : Reaches (blanks ++ (source ++ rest)) vs left)
    (comment : startsComment (left.dropWhile isBlank) = true) :
    ∃ us, (∀ u ∈ us, u ∈ vs) ∧ Reaches rest us left := by
  induction h generalizing blanks vs with
  | last some chars =>
    cases reaches with
    | here =>
      rw [startsComment_word some chars blank] at comment
      cases comment
    | word _ _ later =>
      rw [(next_word some chars ended blank).2.2] at later
      exact ⟨_, fun _ => List.mem_cons_of_mem _, later⟩
  | @cons _ blanks₂ source _ some chars apart blank₂ _ ih =>
    rw [List.append_assoc, List.append_assoc] at reaches
    cases reaches with
    | here =>
      rw [startsComment_word some chars blank] at comment
      cases comment
    | word _ _ later =>
      rw [(next_word some chars (ended_of_blanks apart blank₂ _) blank).2.2] at later
      obtain ⟨us, among, reached⟩ := ih blank₂ later
      exact ⟨us, fun u mem => List.mem_cons_of_mem _ (among u mem), reached⟩

/-- A word in front of both texts. -/
theorem Alike.word (some : v ≠ []) (chars : ∀ c ∈ v, isWordChar c = true)
    (ended : cs.head?.any isWordChar = false) (ended' : cs'.head?.any isWordChar = false)
    (later : Alike (longer phrase v) cs cs') : Alike phrase (v ++ cs) (v ++ cs') := by
  obtain ⟨next₁, after₁⟩ := next_front some chars ended
  obtain ⟨next₂, after₂⟩ := next_front some chars ended'
  refine .goes (next₂.trans next₁.symm) ?_
  rwa [next₁, after₁, after₂]

theorem Unparted.word (some : v ≠ []) (chars : ∀ c ∈ v, isWordChar c = true)
    (ended : cs.head?.any isWordChar = false) (ended' : cs'.head?.any isWordChar = false)
    (unparted : Unparted phrase (v ++ cs) (v ++ cs')) : Unparted (longer phrase v) cs cs' := by
  obtain ⟨next₁, after₁⟩ := next_front some chars ended
  obtain ⟨next₂, after₂⟩ := next_front some chars ended'
  have gone := unparted.goes (next₂.trans next₁.symm) (by rwa [next₁])
  rwa [next₁, after₁, after₂] at gone

/-- Words in front of both texts are alike if what comes after them is. -/
theorem Alike.words (h : Words source ws) (ended : rest.head?.any isWordChar = false)
    (ended' : rest'.head?.any isWordChar = false)
    (unparted : Unparted phrase (source ++ rest) (source ++ rest'))
    (later : ∀ phrase, Unparted phrase rest rest' → Alike phrase rest rest') :
    Alike phrase (source ++ rest) (source ++ rest') := by
  induction h generalizing phrase with
  | last some chars =>
    exact .word some chars ended ended' (later _ (unparted.word some chars ended ended'))
  | @cons _ _ source _ some chars apart blank _ ih =>
    simp only [List.append_assoc] at unparted ⊢
    have after (cs : List Char) := ended_of_blanks apart blank (source ++ cs)
    have unparted₁ := unparted.word some chars (after rest) (after rest')
    have alike := (ih (unparted₁.unspaced blank blank)).spaced blank blank
    exact .word some chars (after rest) (after rest') alike

theorem Alike.mark {c : Char} (plain : isBlank c = false) (mark : isWordChar c = false)
    (phrase : String) (cs cs' : List Char) : Alike phrase (c :: cs) (c :: cs') :=
  .of_none (longerKeyword?_ended (next_mark plain mark cs))
    (longerKeyword?_ended (next_mark plain mark cs'))

/-- A number that is in front of a text is no word, or a word that starts with a digit. -/
theorem next_digit {c : Char} (digit : c.isDigit = true) (cs : List Char) :
    next (c :: cs) = [] ∨ isNumeral (next (c :: cs)) = true := by
  have plain : isBlank c = false := isDigit_plain c digit
  rw [next, List.dropWhile_cons_of_neg (by simp [plain])]
  cases isWord : isWordChar c with
  | false => exact .inl (by simp [word, isWord])
  | true => exact .inr (by simp [isNumeral, word, isWord, digit])

theorem Alike.digit {c : Char} (digit : c.isDigit = true) (phrase : String) (cs cs' : List Char) :
    Alike phrase (c :: cs) (c :: cs') := by
  have none (cs : List Char) : longerKeyword? phrase (c :: cs) = none := by
    rcases next_digit digit cs with ended | numeral
    · exact longerKeyword?_ended ended
    · exact longerKeyword?_numeral numeral
  exact .of_none (none cs) (none cs')

end Along

/-- A word that comes next in a text that starts with none has blanks in front of it. -/
theorem blanks_of_next {cs : List Char} (some : next cs ≠ [])
    (starts : cs.head?.any isWordChar = false) : cs.takeWhile isBlank ≠ [] := by
  intro none
  obtain ⟨c, ws, first⟩ := List.exists_cons_of_ne_nil some
  have split := gap_word_append cs
  rw [none, List.nil_append] at split
  have isWord : isWordChar c = true := List.mem_takeWhile_imp (first ▸ List.mem_cons_self)
  rw [← split, show word (cs.dropWhile isBlank) = c :: ws from first] at starts
  simp [isWord] at starts

/-- The words that were taken are still taken, and no more of them. -/
theorem longerKeyword?_loosened {phrase keyword : String} {cs taken rest : List Char}
    (h : longerKeyword? phrase cs = some (keyword, taken, rest))
    (starts : cs.head?.any isWordChar = false) : ∃ blanks source ws, taken = blanks ++ source ∧
      blanks ≠ [] ∧ (∀ c ∈ blanks, isBlank c = true) ∧ Words source ws ∧
      rest.head?.any isWordChar = false ∧ ∀ rest', rest'.head?.any isWordChar = false →
        Alike (ws.foldl longer phrase) rest rest' →
          longerKeyword? phrase (taken ++ rest') = some (keyword, taken, rest') := by
  obtain ⟨extendable, some⟩ : isExtendable phrase = true ∧ next cs ≠ [] := by
    constructor
    · by_contra alone
      rw [longerKeyword?_alone (by simpa using alone)] at h
      cases h
    · intro ended
      rw [longerKeyword?_ended ended] at h
      cases h
  have chars : ∀ c ∈ next cs, isWordChar c = true := fun c mem => List.mem_takeWhile_imp mem
  have ended : (afterNext cs).head?.any isWordChar = false := Literal.head?_dropWhile_any ..
  have blank : ∀ c ∈ cs.takeWhile isBlank, isBlank c = true :=
    fun c mem => List.mem_takeWhile_imp mem
  have apart : cs.takeWhile isBlank ≠ [] := blanks_of_next some starts
  rw [longerKeyword?_goes extendable some, Option.or_eq_some_iff] at h
  -- Either a longer keyword was found, which is still found, or none was and none comes up.
  rcases h with found | ⟨none, found⟩
  · obtain ⟨⟨keyword, taken, left⟩, deeper, same⟩ := Option.map_eq_some_iff.1 found
    simp only [Prod.mk.injEq] at same
    obtain ⟨rfl, rfl, rfl⟩ := same
    obtain ⟨blanks, source, ws, rfl, apart₂, blank₂, words, last, kept⟩ :=
      longerKeyword?_loosened deeper ended
    refine ⟨_, _, _, List.append_assoc .., apart, blank, .cons some chars apart₂ blank₂ words, last,
      fun rest' last' alike => ?_⟩
    have ended' : (blanks ++ source ++ rest').head?.any isWordChar = false := by
      rw [List.append_assoc]
      exact ended_of_blanks apart₂ blank₂ _
    obtain ⟨gap, same, after⟩ := next_word some chars ended' blank
    have split : cs.takeWhile isBlank ++ next cs ++ (blanks ++ source) ++ rest' =
        cs.takeWhile isBlank ++ (next cs ++ (blanks ++ source ++ rest')) := by simp
    rw [split, longerKeyword?_goes extendable (by rwa [same]), gap, same, after,
      kept rest' last' alike]
    rfl
  · split at found
    case isFalse => cases found
    case isTrue complete =>
      simp only [Option.some.injEq, Prod.mk.injEq] at found
      obtain ⟨rfl, rfl, rfl⟩ := found
      refine ⟨_, _, [next cs], rfl, apart, blank, .last some chars, ended,
        fun rest' last' alike => ?_⟩
      obtain ⟨gap, same, after⟩ := next_word some chars last' blank
      have alone : longerKeyword? (longer phrase (next cs)) rest' = .none := by
        rw [Option.map_eq_none_iff] at none
        exact alike.none_iff.2 none
      rw [List.append_assoc, longerKeyword?_goes extendable (by rwa [same]), gap, same, after,
        alone, complete]
      rfl
termination_by cs.length
decreasing_by
  have split := congrArg List.length (gap_word_append cs)
  have taken := List.length_pos_iff.2 some
  simp only [List.length_append] at split
  change 0 < (word (cs.dropWhile isBlank)).length at taken
  change (afterWord (cs.dropWhile isBlank)).length < cs.length
  omega

end Lexeme.Name

end SqlQuery
