import SqlQuery.Proofs.Spacing.Phrase

/-!
Names, keywords and parameters: each is read alike whatever blanks come after it, and a keyword is
not continued by words that come after other blanks.
-/

namespace SqlQuery.Lexeme.Name

open Text

variable {cs cs' source rest rest' : List Char} {c : Char} {kind : Kind} {text : String}

section Words

theorem word_splits (cs : List Char) : (∀ c ∈ word cs, isWordChar c = true) ∧
    (afterWord cs).head?.any isWordChar = false :=
  ⟨fun _ mem => List.mem_takeWhile_imp mem, Literal.head?_dropWhile_any ..⟩

theorem word_append_of {w : List Char} (chars : ∀ c ∈ w, isWordChar c = true)
    (ended : rest.head?.any isWordChar = false) :
    word (w ++ rest) = w ∧ afterWord (w ++ rest) = rest :=
  Prod.mk.inj (Literal.run_append_of chars ended)

/-- A word or a keyword goes as far as before, if the phrase goes on as before. -/
theorem readWord_loosened (h : readWord cs = ⟨kind, text, source, rest⟩)
    (starts : cs.head?.any isWordChar = true) :
    ∃ ws, Words source ws ∧ rest.head?.any isWordChar = false ∧
      ∀ rest', rest'.head?.any isWordChar = false → Alike (asPhrase ws) rest rest' →
        readWord (source ++ rest') = ⟨kind, text, source, rest'⟩ := by
  obtain ⟨chars, ended⟩ := word_splits cs
  have some : word cs ≠ [] := by
    obtain ⟨c, head, isWord⟩ := (Option.any_eq_true ..).1 starts
    obtain ⟨ds, rfl⟩ := List.head?_eq_some_iff.1 head
    simp [word, isWord]
  unfold readWord at h
  dsimp only at h
  split at h
  case h_1 keyword taken left found =>
    simp only [Piece.mk.injEq] at h
    obtain ⟨rfl, rfl, rfl, rfl⟩ := h
    obtain ⟨blanks, source, ws, rfl, apart, blank, words, last, kept⟩ :=
      longerKeyword?_loosened found ended
    refine ⟨_, .cons some chars apart blank words, last, fun rest' last' alike => ?_⟩
    have ended' : (blanks ++ source ++ rest').head?.any isWordChar = false := by
      rw [List.append_assoc]
      exact ended_of_blanks apart blank _
    obtain ⟨front, back⟩ := word_append_of chars ended'
    rw [List.append_assoc]
    simp only [readWord, front, back, kept rest' last' alike]
  case h_2 none =>
    have source : source = word cs ∧ rest = afterWord cs := by
      split at h
      all_goals
        cases h
        exact ⟨rfl, rfl⟩
    obtain ⟨rfl, rfl⟩ := source
    refine ⟨[word cs], .last some chars, ended, fun rest' last' alike => ?_⟩
    obtain ⟨front, back⟩ := word_append_of chars last'
    have alone : longerKeyword? (String.ofList (lowerChars (word cs))) rest' = .none :=
      alike.none_iff.2 none
    simp only [readWord, front, back, alone]
    split at h
    case isTrue complete =>
      cases h
      rw [if_pos complete]
    case isFalse plain =>
      cases h
      rw [if_neg plain]
      rfl

end Words

section Quoted

theorem head_of_quoted? {close : Char} {name : List Char}
    (h : quoted? close cs = some (name, rest)) : rest.head? ≠ some close := by
  induction cs using quoted?.induct close generalizing name with
  | case1 => simp [quoted?] at h
  | case2 c found =>
    simp only [quoted?, found, if_true, Option.some.injEq, Prod.mk.injEq] at h
    simp [← h.2]
  | case3 c apart => simp [quoted?, apart] at h
  | case4 c d cs here twice ih =>
    simp only [quoted?, here, twice, if_true] at h
    obtain ⟨⟨n, r⟩, found, same⟩ := Option.map_eq_some_iff.1 h
    cases same
    exact ih found
  | case5 c d cs here single =>
    simp only [quoted?, here, single, if_true] at h
    cases h
    simpa using single
  | case6 c d cs apart ih =>
    simp only [quoted?, apart] at h
    obtain ⟨⟨n, r⟩, found, same⟩ := Option.map_eq_some_iff.1 h
    cases same
    exact ih found

theorem readQuoted_loosened {opening close : Char} (visible : close ∉ blankChars)
    (h : readQuoted opening close cs = .ok ⟨kind, text, c :: source, rest⟩)
    (loose : Loosens rest rest') :
    readQuoted opening close (source ++ rest') = .ok ⟨kind, text, c :: source, rest'⟩ := by
  unfold readQuoted at h
  split at h
  case h_1 => cases h
  case h_2 name left found =>
    simp only [Except.ok.injEq, Piece.mk.injEq, List.cons_append, List.cons.injEq] at h
    obtain ⟨rfl, rfl, ⟨rfl, rfl⟩, rfl⟩ := h
    have last := loose.head_ne visible (head_of_quoted? found)
    have found' : quoted? close (doubled close name ++ [close] ++ rest') = some (name, rest') := by
      rw [List.append_assoc]
      exact quoted?_doubled last name
    simp only [readQuoted, found', List.cons_append]

end Quoted

/-- What the phrase is read from goes on alike after the words that were read. -/
def Continues (source rest rest' : List Char) : Prop :=
  ∀ ws, Words source ws → rest.head?.any isWordChar = false →
    rest'.head?.any isWordChar = false → Alike (asPhrase ws) rest rest'

theorem read?_loosened {wildcard bracket : Bool}
    (h : read? wildcard bracket (source ++ rest) = some (.ok ⟨kind, text, source, rest⟩))
    (loose : Loosens rest rest') (continues : Continues source rest rest') :
    read? wildcard bracket (source ++ rest') = some (.ok ⟨kind, text, source, rest'⟩) := by
  obtain ⟨c, more, rfl⟩ := List.exists_cons_of_ne_nil (read?_splits h).2
  rw [List.cons_append] at h ⊢
  unfold read? at h ⊢
  dsimp only at h ⊢
  split at h
  case isTrue star =>
    simp only [Piece.verbatim, Option.some.injEq, Except.ok.injEq, Piece.mk.injEq,
      List.cons.injEq] at h
    obtain ⟨rfl, rfl, ⟨rfl, rfl⟩, _⟩ := h
    rw [if_pos star]
    rfl
  case isFalse star =>
    rw [if_neg star]
    split at h
    case isTrue mark =>
      have visible : c ∉ blankChars := by
        simp only [Bool.or_eq_true, beq_iff_eq] at mark
        rcases mark with rfl | rfl <;> decide
      rw [if_pos mark, readQuoted_loosened visible (Option.some.inj h) loose]
    case isFalse mark =>
      rw [if_neg mark]
      split at h
      case isTrue opening =>
        rw [if_pos opening, readQuoted_loosened (by decide) (Option.some.inj h) loose]
      case isFalse opening =>
        rw [if_neg opening]
        split at h
        case isTrue => cases h
        case isFalse delimiter =>
          have isWord : isWordChar c = true := by simpa [isWordChar] using delimiter
          have read := Except.ok.inj (Option.some.inj h)
          obtain ⟨ws, words, last, kept⟩ := readWord_loosened read isWord
          have last' := loose.ends isWordChar_plain last
          rw [if_neg delimiter, ← List.cons_append, kept rest' last' (continues ws words last last')]

/-- Whether a name is read depends on the first character alone. -/
theorem read?_none {wildcard bracket : Bool} (h : read? wildcard bracket (c :: cs) = none)
    (cs' : List Char) : read? wildcard bracket (c :: cs') = none ∧ isWordChar c = false := by
  unfold read? at h ⊢
  dsimp only at h ⊢
  split at h
  case isTrue => cases h
  case isFalse star =>
    split at h
    case isTrue => cases h
    case isFalse mark =>
      split at h
      case isTrue => cases h
      case isFalse opening =>
        split at h
        case isFalse => cases h
        case isTrue delimiter =>
          rw [if_neg star, if_neg mark, if_neg opening, if_pos delimiter]
          exact ⟨rfl, by simp [isWordChar, delimiter]⟩

theorem readParameter?_loosened {ordinal : Nat}
    (h : readParameter? ordinal (source ++ rest) = some ⟨kind, text, source, rest⟩)
    (loose : Loosens rest rest') :
    readParameter? ordinal (source ++ rest') = some ⟨kind, text, source, rest'⟩ := by
  obtain ⟨c, more, rfl⟩ := List.exists_cons_of_ne_nil (readParameter?_splits h).2
  rw [List.cons_append] at h ⊢
  unfold readParameter? at h ⊢
  dsimp only at h ⊢
  split at h
  case isTrue mark =>
    simp only [Option.some.injEq, Piece.mk.injEq, List.cons.injEq] at h
    obtain ⟨rfl, rfl, ⟨rfl, rfl⟩, _⟩ := h
    rw [if_pos mark]
    rfl
  case isFalse mark =>
    split at h
    case isFalse => cases h
    case isTrue named =>
      simp only [Option.some.injEq, Piece.mk.injEq, List.cons.injEq, true_and] at h
      obtain ⟨rfl, rfl, taken, left⟩ := h
      obtain ⟨chars, last⟩ := word_splits (more ++ rest)
      rw [taken] at chars
      rw [left] at last
      obtain ⟨front, back⟩ := word_append_of chars (loose.ends isWordChar_plain last)
      have named' : ((c == ':' || c == '$' || c == '@') &&
          (more ++ rest').head?.any isWordChar) = true := by
        rw [Bool.and_eq_true] at named ⊢
        refine ⟨named.1, ?_⟩
        cases more with
        | nil =>
          rw [List.nil_append, last] at named
          cases named.2
        | cons d more => exact named.2
      rw [if_neg mark, if_pos named', front, back, taken]

theorem readParameter?_none_loosened {ordinal : Nat} (h : readParameter? ordinal (c :: cs) = none)
    (loose : Loosens cs cs') : readParameter? ordinal (c :: cs') = none := by
  unfold readParameter? at h ⊢
  dsimp only at h ⊢
  split at h
  case isTrue => cases h
  case isFalse mark =>
    split at h
    case isTrue => cases h
    case isFalse single =>
      rw [if_neg mark, if_neg]
      simp only [Bool.and_eq_true, not_and] at single ⊢
      exact fun marker starts => single marker (loose.starts isWordChar_plain starts)

/-- What is read where a word begins is words. -/
theorem words_of_read? {wildcard bracket : Bool}
    (h : read? wildcard bracket (c :: cs) = some (.ok ⟨kind, text, source, rest⟩))
    (isWord : isWordChar c = true) :
    ∃ ws, Words source ws ∧ rest.head?.any isWordChar = false := by
  have star : ¬ (c == '*' && wildcard) = true := by
    rintro mark
    obtain rfl : c = '*' := eq_of_beq (Bool.and_eq_true_iff.1 mark).1
    cases isWord
  have mark : ¬ (c == '\x60' || c == '\x22') = true := by
    rintro mark
    simp only [Bool.or_eq_true, beq_iff_eq] at mark
    rcases mark with rfl | rfl <;> cases isWord
  have opening : ¬ (c == '[' && bracket) = true := by
    rintro mark
    obtain rfl : c = '[' := eq_of_beq (Bool.and_eq_true_iff.1 mark).1
    cases isWord
  have delimiter : ¬ isDelimiter c = true := by simpa [isWordChar] using isWord
  rw [read?, if_neg star, if_neg mark, if_neg opening, if_neg delimiter] at h
  obtain ⟨ws, words, last, _⟩ := readWord_loosened (Except.ok.inj (Option.some.inj h)) isWord
  exact ⟨ws, words, last⟩

theorem words_of_readParameter? {ordinal : Nat}
    (h : readParameter? ordinal (c :: cs) = some ⟨kind, text, source, rest⟩)
    (isWord : isWordChar c = true) :
    ∃ ws, Words source ws ∧ rest.head?.any isWordChar = false := by
  unfold readParameter? at h
  dsimp only at h
  split at h
  case isTrue mark =>
    obtain rfl := eq_of_beq mark
    cases isWord
  case isFalse =>
    split at h
    case isFalse => cases h
    case isTrue =>
      cases h
      obtain ⟨chars, last⟩ := word_splits cs
      exact ⟨_, .last (List.cons_ne_nil c _) (List.forall_mem_cons.2 ⟨isWord, chars⟩), last⟩

end SqlQuery.Lexeme.Name
