import Mathlib.Order.Bounds.Basic
import SqlQuery.Proofs.Spacing.Phrase

/-!
The longest keyword. A word is read as a keyword together with as many of the words after it as make
one with it, and as a name if it is no keyword and makes none.
-/

namespace SqlQuery

open Text

/-- A word with the blanks in front of it. -/
structure SpacedWord where
  blanks : List Char
  word : List Char
  deriving DecidableEq, Repr

/-- The words at the front of the text with nothing but blanks between them. No word goes on after
its end, and after the last one something else stands or nothing. -/
inductive FrontWords : List Char → List SpacedWord → Prop
  | ended {blanks rest : List Char} (blank : ∀ c ∈ blanks, isBlank c = true)
      (stops : rest.head?.any (fun c => isBlank c || isWordChar c) = false) :
      FrontWords (blanks ++ rest) []
  | cons {blanks w rest : List Char} {ws : List SpacedWord} (blank : ∀ c ∈ blanks, isBlank c = true)
      (some : w ≠ []) (chars : ∀ c ∈ w, isWordChar c = true)
      (stops : rest.head?.any isWordChar = false) (later : FrontWords rest ws) :
      FrontWords (blanks ++ (w ++ rest)) (⟨blanks, w⟩ :: ws)

/-- The words in lowercase with one blank between each two. -/
def phraseOf (ws : List SpacedWord) : String :=
  " ".intercalate (ws.map fun w => String.ofList (lowerChars w.word))

/-- The text that the words take. -/
def sourceOf (ws : List SpacedWord) : List Char := ws.flatMap fun w => w.blanks ++ w.word

/-- How many of the words, taken from the front, make a keyword with the words read before them. -/
def keywordLengths (read ws : List SpacedWord) : Set Nat :=
  {k | 0 < k ∧ k ≤ ws.length ∧ Keyword.isComplete (phraseOf (read ++ ws.take k)) = true}

section Phrases

variable {read us vs ws : List SpacedWord} {w : SpacedWord}

theorem phraseOf_append (us_some : us ≠ []) (vs_some : vs ≠ []) :
    phraseOf (us ++ vs) = phraseOf us ++ " " ++ phraseOf vs := by
  obtain ⟨v, vs, rfl⟩ := List.exists_cons_of_ne_nil vs_some
  induction us with
  | nil => exact absurd rfl us_some
  | cons u us ih =>
    cases us with
    | nil => simp [phraseOf, String.intercalate_cons_cons]
    | cons u' us =>
      have later := ih (List.cons_ne_nil u' us)
      simp only [phraseOf, List.cons_append, List.map_cons, String.intercalate_cons_cons] at later ⊢
      rw [later]
      simp only [String.append_assoc]

theorem phraseOf_singleton (w : SpacedWord) :
    phraseOf [w] = String.ofList (lowerChars w.word) := by
  simp [phraseOf]

/-- What begins a keyword of several words can be extended. -/
theorem Keyword.extendable_of_complete {phrase more : String}
    (h : isComplete (phrase ++ " " ++ more) = true) : isExtendable phrase = true := by
  have single : ∀ word ∈ reserved, ' ' ∉ word.toList := by decide
  simp only [isComplete, isReserved, Bool.or_eq_true, List.contains_iff_mem] at h
  rcases h with mem | mem
  · refine absurd ?_ (single _ mem)
    simp [String.toList_append]
  · refine List.any_eq_true.2 ⟨_, mem, List.isPrefixOf_iff_prefix.2 ⟨more.toList, ?_⟩⟩
    simp [String.toList_append]

/-- No words make a keyword with a phrase that cannot be extended. -/
theorem keywordLengths_alone (some : read ≠ [])
    (alone : Keyword.isExtendable (phraseOf read) = false) : keywordLengths read ws = ∅ := by
  refine Set.eq_empty_iff_forall_notMem.2 fun k ⟨positive, le, complete⟩ => ?_
  have taken : ws.take k ≠ [] := by
    rw [Ne, List.take_eq_nil_iff]
    rintro (rfl | rfl)
    · exact absurd positive (Nat.lt_irrefl 0)
    · exact absurd (Nat.lt_of_lt_of_le positive le) (Nat.lt_irrefl 0)
  rw [phraseOf_append some taken] at complete
  rw [Keyword.extendable_of_complete complete] at alone
  cases alone

theorem keywordLengths_nil : keywordLengths read [] = ∅ :=
  Set.eq_empty_iff_forall_notMem.2 fun _ ⟨positive, le, _⟩ =>
    absurd (Nat.lt_of_lt_of_le positive le) (Nat.lt_irrefl 0)

/-- The first word makes a keyword itself, or begins one. -/
theorem mem_keywordLengths_cons {k : Nat} : k ∈ keywordLengths read (w :: ws) ↔
    ∃ j, k = j + 1 ∧ (j = 0 ∧ Keyword.isComplete (phraseOf (read ++ [w])) = true ∨
      j ∈ keywordLengths (read ++ [w]) ws) := by
  cases k with
  | zero => simp [keywordLengths]
  | succ j =>
    have split : read ++ (w :: ws).take (j + 1) = read ++ [w] ++ ws.take j := by simp
    simp only [keywordLengths, Set.mem_ofPred_eq, split, Nat.succ_pos, true_and, List.length_cons,
      Nat.add_le_add_iff_right, Nat.add_right_cancel_iff, exists_eq_left']
    rcases Nat.eq_zero_or_pos j with rfl | positive
    · simp
    · simp [positive, Nat.ne_of_gt positive]

theorem isGreatest_cons {k : Nat} (h : IsGreatest (keywordLengths (read ++ [w]) ws) k) :
    IsGreatest (keywordLengths read (w :: ws)) (k + 1) := by
  refine ⟨mem_keywordLengths_cons.2 ⟨k, rfl, .inr h.1⟩, fun n mem => ?_⟩
  obtain ⟨j, rfl, ⟨rfl, _⟩ | mem⟩ := mem_keywordLengths_cons.1 mem
  · exact Nat.succ_le_succ (Nat.zero_le k)
  · exact Nat.succ_le_succ (h.2 mem)

theorem isGreatest_one (complete : Keyword.isComplete (phraseOf (read ++ [w])) = true)
    (none : keywordLengths (read ++ [w]) ws = ∅) :
    IsGreatest (keywordLengths read (w :: ws)) 1 := by
  refine ⟨mem_keywordLengths_cons.2 ⟨0, rfl, .inl ⟨rfl, complete⟩⟩, fun n mem => ?_⟩
  obtain ⟨j, rfl, ⟨rfl, _⟩ | mem⟩ := mem_keywordLengths_cons.1 mem
  · exact Nat.le_refl 1
  · rw [none] at mem
    cases mem

theorem keywordLengths_cons_empty
    (incomplete : Keyword.isComplete (phraseOf (read ++ [w])) = false)
    (none : keywordLengths (read ++ [w]) ws = ∅) : keywordLengths read (w :: ws) = ∅ := by
  refine Set.eq_empty_iff_forall_notMem.2 fun n mem => ?_
  obtain ⟨j, rfl, ⟨rfl, complete⟩ | mem⟩ := mem_keywordLengths_cons.1 mem
  · rw [incomplete] at complete
    cases complete
  · rw [none] at mem
    cases mem

end Phrases

namespace Lexeme.Name

variable {cs : List Char} {ws : List SpacedWord}

/-- Every text has its words at the front. -/
theorem exists_frontWords (cs : List Char) : ∃ ws, FrontWords cs ws := by
  induction measured : cs.length using Nat.strongRecOn generalizing cs with
  | ind n ih =>
    have blank : ∀ c ∈ cs.takeWhile isBlank, isBlank c = true :=
      fun c mem => List.mem_takeWhile_imp mem
    by_cases ended : next cs = []
    · have stops : (cs.dropWhile isBlank).head?.any (fun c => isBlank c || isWordChar c) = false := by
        cases tail : cs.dropWhile isBlank with
        | nil => rfl
        | cons c rest =>
          have plain : isBlank c = false := by
            simpa [tail] using List.head?_dropWhile_not isBlank cs
          have mark : isWordChar c = false := by
            by_contra isWord
            rw [next, tail] at ended
            simp [word, isWord] at ended
          simp [plain, mark]
      have split : cs.takeWhile isBlank ++ cs.dropWhile isBlank = cs :=
        List.takeWhile_append_dropWhile
      exact ⟨[], split ▸ .ended blank stops⟩
    · have split : cs.takeWhile isBlank ++ (next cs ++ afterNext cs) = cs := gap_word_append cs
      have taken := List.length_pos_iff.2 ended
      have long := congrArg List.length split
      simp only [List.length_append] at long
      obtain ⟨ws, later⟩ := ih (afterNext cs).length (by omega) (afterNext cs) rfl
      have stops : (afterNext cs).head?.any isWordChar = false := Literal.head?_dropWhile_any ..
      have front := FrontWords.cons blank ended (fun c mem => List.mem_takeWhile_imp mem) stops later
      rw [split] at front
      exact ⟨_, front⟩

/-- A text that starts with a word has it as the first one, without blanks in front of it. -/
theorem frontWords_start {c : Char} (start : isWordChar c = true) (front : FrontWords (c :: cs) ws) :
    ∃ w rest later, ws = ⟨[], w⟩ :: later ∧ w ++ rest = c :: cs ∧ word (c :: cs) = w ∧
      afterWord (c :: cs) = rest ∧ FrontWords rest later := by
  have plain : isBlank c = false := isWordChar_plain c start
  have none {blanks rest : List Char} (blank : ∀ b ∈ blanks, isBlank b = true)
      (text : c :: cs = blanks ++ rest) : blanks = [] := by
    cases blanks with
    | nil => rfl
    | cons b blanks =>
      obtain ⟨rfl, -⟩ := List.cons.inj text
      rw [blank c List.mem_cons_self] at plain
      cases plain
  generalize text : c :: cs = whole at front
  cases front with
  | ended blank stops =>
    obtain rfl := none blank text
    rw [List.nil_append] at text
    simp [← text, start] at stops
  | @cons blanks w rest later blank taken chars stops front =>
    obtain rfl := none blank text
    obtain ⟨first, after⟩ := Prod.mk.inj (Literal.run_append_of chars stops)
    exact ⟨w, rest, later, rfl, rfl, first, after, front⟩

/-- After words that are read, a keyword is found exactly if some of the next words make one with
them, and then it takes as many of these as it can. -/
theorem longerKeyword?_longest (front : FrontWords cs ws) {read : List SpacedWord} (some : read ≠ []) :
    match longerKeyword? (phraseOf read) cs with
    | .some (keyword, taken, left) => ∃ k, IsGreatest (keywordLengths read ws) k ∧
        keyword = phraseOf (read ++ ws.take k) ∧ taken = sourceOf (ws.take k) ∧ taken ++ left = cs
    | none => keywordLengths read ws = ∅ := by
  induction front generalizing read with
  | @ended blanks rest blank stops =>
    have ended : next (blanks ++ rest) = [] := by
      rw [(next_blanks blank rest).1]
      cases rest with
      | nil => rfl
      | cons c rest =>
        simp only [List.head?_cons, Option.any_some, Bool.or_eq_false_iff] at stops
        exact next_mark stops.1 stops.2 rest
    rw [longerKeyword?_ended ended]
    exact keywordLengths_nil
  | @cons blanks w rest ws blank taken chars stops _ ih =>
    cases extendable : Keyword.isExtendable (phraseOf read) with
    | false =>
      rw [longerKeyword?_alone extendable]
      exact keywordLengths_alone some extendable
    | true =>
      obtain ⟨gap, same, after⟩ := next_word taken chars stops blank
      have grown : longer (phraseOf read) w = phraseOf (read ++ [⟨blanks, w⟩]) := by
        rw [phraseOf_append some (List.cons_ne_nil _ _), phraseOf_singleton, longer]
      rw [longerKeyword?_goes extendable (by rwa [same]), gap, same, after, grown]
      have deeper := ih (show read ++ [⟨blanks, w⟩] ≠ [] by simp)
      split at deeper
      case h_1 keyword source left found =>
        obtain ⟨k, greatest, rfl, rfl, rfl⟩ := deeper
        rw [found]
        exact ⟨k + 1, isGreatest_cons greatest, by simp, by simp [sourceOf], by simp⟩
      case h_2 found =>
        rw [found]
        cases complete : Keyword.isComplete (phraseOf (read ++ [⟨blanks, w⟩])) with
        | false => exact keywordLengths_cons_empty complete deeper
        | true =>
          exact ⟨1, isGreatest_one complete deeper, rfl, by simp [sourceOf], by simp⟩

/-- The words that are read of those at the front are the longest keyword, or a name alone. -/
theorem readWord_front {c : Char} (start : isWordChar c = true) (front : FrontWords (c :: cs) ws) :
    (∃ k left, IsGreatest (keywordLengths [] ws) k ∧ sourceOf (ws.take k) ++ left = c :: cs ∧
      readWord (c :: cs) = ⟨.command, phraseOf (ws.take k), sourceOf (ws.take k), left⟩) ∨
    keywordLengths [] ws = ∅ ∧ ∃ w left, ws.head? = some ⟨[], w⟩ ∧ w ++ left = c :: cs ∧
      readWord (c :: cs) = ⟨.identifier, String.ofList w, w, left⟩ := by
  obtain ⟨w, rest, ws, rfl, text, first, after, later⟩ := frontWords_start start front
  have alone : String.ofList (lowerChars w) = phraseOf ([] ++ [⟨[], w⟩]) :=
    (phraseOf_singleton ⟨[], w⟩).symm
  have deeper := longerKeyword?_longest later (show [] ++ [⟨[], w⟩] ≠ [] by simp)
  unfold readWord
  simp only [first, after, alone]
  cases found : longerKeyword? (phraseOf ([] ++ [⟨[], w⟩])) rest with
  | some longest =>
    obtain ⟨keyword, source, left⟩ := longest
    rw [found] at deeper
    obtain ⟨k, greatest, rfl, rfl, split⟩ := deeper
    refine .inl ⟨k + 1, left, isGreatest_cons greatest, ?_, ?_⟩
    · simp [sourceOf, ← text, ← split]
    · simp [sourceOf]
  | none =>
    rw [found] at deeper
    cases complete : Keyword.isComplete (phraseOf ([] ++ [⟨[], w⟩])) with
    | false =>
      exact .inr ⟨keywordLengths_cons_empty complete deeper, w, rest, rfl, text, rfl⟩
    | true =>
      refine .inl ⟨1, rest, isGreatest_one complete deeper, ?_, ?_⟩
      · simpa [sourceOf] using text
      · simp [sourceOf]

/-- Of the words at the front of a text that starts with one, as many as can make a keyword are read
as this keyword. If none do, the first word is read alone, as a name and as it is written. -/
theorem readWord_longest {c : Char} (start : isWordChar c = true) : (∃ ws, FrontWords (c :: cs) ws) ∧
    ∀ ws, FrontWords (c :: cs) ws →
      (∃ k left, IsGreatest (keywordLengths [] ws) k ∧ sourceOf (ws.take k) ++ left = c :: cs ∧
        readWord (c :: cs) = ⟨.command, phraseOf (ws.take k), sourceOf (ws.take k), left⟩) ∨
      keywordLengths [] ws = ∅ ∧ ∃ w left, ws.head? = some ⟨[], w⟩ ∧ w ++ left = c :: cs ∧
        readWord (c :: cs) = ⟨.identifier, String.ofList w, w, left⟩ :=
  ⟨exists_frontWords _, fun _ => readWord_front start⟩

/-- Three words of a keyword in letters of both cases, with several blanks between them and a word
after them. -/
theorem readWord_longest_join :
    let ws : List SpacedWord := [⟨[], "Left".toList⟩, ⟨"\t ".toList, "OUTER".toList⟩,
      ⟨"  ".toList, "join".toList⟩, ⟨" ".toList, "x".toList⟩]
    isWordChar 'L' = true ∧ FrontWords ('L' :: "eft\t OUTER  join x".toList) ws ∧
      IsGreatest (keywordLengths [] ws) 3 ∧ readWord ('L' :: "eft\t OUTER  join x".toList) =
        ⟨.command, "left outer join", "Left\t OUTER  join".toList, " x".toList⟩ := by
  intro ws
  have start : isWordChar 'L' = true := by decide
  have spaced (blanks w : String) {rest : List Char} {more : List SpacedWord}
      (blank : blanks.toList.all isBlank = true) (chars : w.toList.all isWordChar = true)
      (some : w.toList ≠ []) (stops : rest.head?.any isWordChar = false) (later : FrontWords rest more) :
      FrontWords (blanks.toList ++ (w.toList ++ rest)) (⟨blanks.toList, w.toList⟩ :: more) :=
    .cons (List.all_eq_true.1 blank) some (List.all_eq_true.1 chars) stops later
  have none : FrontWords [] [] := @FrontWords.ended [] [] nofun rfl
  have front : FrontWords ('L' :: "eft\t OUTER  join x".toList) ws :=
    spaced "" "Left" rfl rfl (by decide) rfl <| spaced "\t " "OUTER" rfl rfl (by decide) rfl <|
      spaced "  " "join" rfl rfl (by decide) rfl <| spaced " " "x" rfl rfl (by decide) rfl none
  have read : readWord ('L' :: "eft\t OUTER  join x".toList) =
      ⟨.command, "left outer join", "Left\t OUTER  join".toList, " x".toList⟩ := by decide +kernel
  have counted : ∀ k ≤ 4, sourceOf (ws.take k) = "Left\t OUTER  join".toList → k = 3 := by
    decide +kernel
  refine ⟨start, front, ?_, read⟩
  rcases (readWord_longest start).2 ws front with ⟨k, left, greatest, _, same⟩ | ⟨_, _, _, _, _, same⟩
  · have taken := congrArg Piece.source (read.symm.trans same)
    obtain rfl := counted k greatest.1.2.1 taken.symm
    exact greatest
  · cases read.symm.trans same

end Lexeme.Name

end SqlQuery
