import SqlQuery.Proofs.Lexeme.Inversion
import SqlQuery.Proofs.Spacing.Loose

/-!
Literals: what is a number or a string before other blanks come after it still is one, and what is
none does not become one.
-/

namespace SqlQuery.Lexeme.Literal

open Text

variable {cs cs' source rest rest' : List Char} {kind : Kind} {text : String}

section Numbers

theorem radixDigit?_plain {letter : Char} {digit : Char → Bool}
    (h : radixDigit? letter = some digit) : isBlank letter = false ∧ IsPlainClass digit := by
  unfold radixDigit? at h
  split at h
  case isTrue hex =>
    cases h
    simp only [Bool.or_eq_true, beq_iff_eq] at hex
    exact ⟨by rcases hex with rfl | rfl <;> decide, .of_blankChars (by decide)⟩
  split at h
  case isTrue binary =>
    cases h
    simp only [Bool.or_eq_true, beq_iff_eq] at binary
    exact ⟨by rcases binary with rfl | rfl <;> decide, .of_blankChars (by decide)⟩
  split at h
  case isTrue octal =>
    cases h
    simp only [Bool.or_eq_true, beq_iff_eq] at octal
    exact ⟨by rcases octal with rfl | rfl <;> decide, .of_blankChars (by decide)⟩
  case isFalse => cases h

theorem radix?_eq_some : radix? cs = some (source, rest) ↔ ∃ letter digit ds,
    radixDigit? letter = some digit ∧ cs = '0' :: letter :: ds ∧ ds.head?.any digit = true ∧
      source = '0' :: letter :: (run digit ds).1 ∧ rest = (run digit ds).2 := by
  constructor
  · intro h
    unfold radix? at h
    split at h
    case h_2 => cases h
    case h_1 letter ds =>
      obtain ⟨digit, known, found⟩ := Option.bind_eq_some_iff.1 h
      split at found
      case isFalse => cases found
      case isTrue starts =>
        cases found
        exact ⟨letter, digit, ds, known, rfl, starts, rfl, rfl⟩
  · rintro ⟨letter, digit, ds, known, rfl, starts, rfl, rfl⟩
    simp only [radix?, known, Option.bind_some, starts, if_true]

theorem radix?_loosened (h : radix? (source ++ rest) = some (source, rest))
    (loose : Loosens rest rest') : radix? (source ++ rest') = some (source, rest') := by
  obtain ⟨letter, digit, ds, known, split, starts, taken, left⟩ := radix?_eq_some.1 h
  obtain ⟨more, rfl⟩ : ∃ more, source = '0' :: letter :: more := ⟨_, taken⟩
  obtain rfl : more ++ rest = ds := by simpa using split
  have ran : run digit (more ++ rest) = (more, rest) :=
    Prod.ext (by simpa using taken.symm) left.symm
  have ran' : run digit (more ++ rest') = (more, rest') :=
    run_loosened (radixDigit?_plain known).2 ran loose
  have starts' : (more ++ rest').head?.any digit = true := by
    cases more with
    | nil =>
      have ended := (run_eq ran).2
      rw [List.nil_append] at starts
      rw [ended] at starts
      cases starts
    | cons d more => exact starts
  refine radix?_eq_some.2 ⟨letter, digit, more ++ rest', known, rfl, starts', ?_, ?_⟩
  · rw [ran']
  · rw [ran']

theorem radix?_none_loosened (h : radix? cs = none) (loose : Loosens cs cs') : radix? cs' = none := by
  cases found : radix? cs' with
  | none => rfl
  | some result =>
    obtain ⟨letter, digit, ds, known, rfl, starts, _⟩ := radix?_eq_some.1 found
    obtain ⟨_, rfl, loose₁⟩ := loose.uncons (by decide)
    obtain ⟨ds', rfl, loose₂⟩ := loose₁.uncons (radixDigit?_plain known).1
    have starts' := loose₂.starts (radixDigit?_plain known).2 starts
    have found' := radix?_eq_some.2 ⟨letter, digit, ds', known, rfl, starts', rfl, rfl⟩
    cases h.symm.trans found'

theorem number_loosened (h : number (source ++ rest) = (source, rest)) (some : source ≠ [])
    (loose : Loosens rest rest') (points : IsDigits source → KeepsPoints rest rest') :
    number (source ++ rest') = (source, rest') := by
  unfold number at h ⊢
  cases found : radix? (source ++ rest) with
  | none =>
    rw [found] at h
    rw [radix?_none_loosened found (loose.append source)]
    exact decimal_loosened h some loose points
  | some result =>
    rw [found] at h
    obtain rfl : result = (source, rest) := h
    rw [radix?_loosened found loose]
    rfl

theorem not_blank_of_startsNumber {c : Char} (h : startsNumber (c :: cs) = true) :
    isBlank c = false := by
  simp only [startsNumber, Bool.or_eq_true, Bool.and_eq_true, beq_iff_eq] at h
  rcases h with digit | ⟨rfl, _⟩
  · exact isDigit_plain c digit
  · decide

/-- A number that starts after other blanks starts there without them, too. -/
theorem startsNumber_tight (loose : Loosens cs cs') (h : startsNumber cs' = true) :
    startsNumber cs = true := by
  cases cs' with
  | nil => cases h
  | cons c ds' =>
    simp only [startsNumber, Bool.or_eq_true, Bool.and_eq_true, beq_iff_eq] at h
    rcases h with digit | ⟨rfl, digit⟩
    · obtain ⟨ds, rfl, _⟩ := loose.uncons (isDigit_plain c digit)
      simp [startsNumber, digit]
    · obtain ⟨ds, rfl, loose₁⟩ := loose.uncons (by decide)
      simp [startsNumber, loose₁.starts isDigit_plain digit]

/-- A point starts a number only together with the digit after it. -/
theorem startsNumber_taken (starts : startsNumber (source ++ rest) = true)
    (h : number (source ++ rest) = (source, rest)) : startsNumber (source ++ rest') = true := by
  have some : source ≠ [] := by
    have taken := number_taken starts
    rwa [h] at taken
  obtain ⟨c, more, rfl⟩ := List.exists_cons_of_ne_nil some
  simp only [List.cons_append, startsNumber, Bool.or_eq_true, Bool.and_eq_true, beq_iff_eq]
    at starts ⊢
  rcases starts with digit | ⟨rfl, digit⟩
  · exact .inl digit
  · refine .inr ⟨rfl, ?_⟩
    cases more with
    | cons d more => exact digit
    | nil =>
      obtain ⟨d, head, isDigit⟩ := (Option.any_eq_true ..).1 digit
      obtain ⟨ds, same⟩ := List.head?_eq_some_iff.1 head
      rw [List.nil_append] at same
      subst same
      have single : ¬ d = '.' := by
        rintro rfl
        cases isDigit
      have taken := congrArg Prod.fst h
      simp [number, radix?, decimal, run, fraction, single, isDigit] at taken

theorem readNumber_loosened (starts : startsNumber (source ++ rest) = true)
    (h : readNumber (source ++ rest) = ⟨kind, text, source, rest⟩) (loose : Loosens rest rest')
    (points : IsDigits source → KeepsPoints rest rest') :
    startsNumber (source ++ rest') = true ∧
      readNumber (source ++ rest') = ⟨kind, text, source, rest'⟩ := by
  obtain ⟨found, left, ran⟩ : ∃ found left, number (source ++ rest) = (found, left) := ⟨_, _, rfl⟩
  have some := number_taken starts
  simp only [readNumber, ran] at h some
  cases h
  have ran' := number_loosened ran some loose points
  refine ⟨startsNumber_taken starts ran, ?_⟩
  simp only [readNumber, ran']

end Numbers

section Signs

/-- Digits alone or after a sign, which a point could go on with. -/
def IsWhole (source : List Char) : Prop :=
  ∃ front digits, source = front ++ digits ∧ IsDigits digits ∧
    (front = [] ∨ ∃ sign blanks, front = sign :: blanks ∧ (sign = '+' ∨ sign = '-') ∧
      ∀ c ∈ blanks, isBlank c = true)

theorem readSigned?_eq_some {sign : Char} {piece : Piece} :
    readSigned? (sign :: cs) = some piece ↔
      (sign = '+' ∨ sign = '-') ∧ startsNumber (cs.dropWhile isBlank) = true ∧
        piece = ⟨.literal, String.ofList ((if sign == '-' then ['-'] else []) ++
          numberText (number (cs.dropWhile isBlank)).1),
          sign :: cs.takeWhile isBlank ++ (number (cs.dropWhile isBlank)).1,
          (number (cs.dropWhile isBlank)).2⟩ := by
  simp only [readSigned?, run, Bool.and_eq_true, Bool.or_eq_true, beq_iff_eq]
  split
  case isTrue signed =>
    simp only [Option.some.injEq, signed.1, signed.2, true_and]
    exact eq_comm
  case isFalse other =>
    simp only [reduceCtorEq, false_iff]
    exact fun signed => other ⟨signed.1, signed.2.1⟩

theorem readSigned?_loosened (h : readSigned? (source ++ rest) = some ⟨kind, text, source, rest⟩)
    (loose : Loosens rest rest') (points : IsWhole source → KeepsPoints rest rest') :
    readSigned? (source ++ rest') = some ⟨kind, text, source, rest'⟩ := by
  obtain ⟨sign, more, rfl⟩ := List.exists_cons_of_ne_nil (readSigned?_splits h).2
  rw [List.cons_append] at h ⊢
  obtain ⟨signed, starts, same⟩ := readSigned?_eq_some.1 h
  obtain ⟨blanks, digits, blank⟩ : ∃ blanks digits, run isBlank (more ++ rest) = (blanks, digits) :=
    ⟨_, _, rfl⟩
  obtain ⟨found, left, ran⟩ : ∃ found left, number digits = (found, left) := ⟨_, _, rfl⟩
  obtain ⟨front, back⟩ := Prod.mk.inj blank
  rw [back] at starts
  have some := number_taken starts
  have split := number_append digits
  simp only [front, back, ran, Piece.mk.injEq, List.cons_append, List.cons.injEq, true_and]
    at same some split
  obtain ⟨rfl, rfl, rfl, rfl⟩ := same
  subst split
  have allBlank : ∀ c ∈ blanks, isBlank c = true := by
    rw [← front]
    exact fun c mem => List.mem_takeWhile_imp mem
  have ran' : number (found ++ rest') = (found, rest') := by
    refine number_loosened ran some loose fun digits =>
      points ⟨sign :: blanks, found, rfl, digits, ?_⟩
    exact .inr ⟨sign, blanks, rfl, signed, allBlank⟩
  have starts' : startsNumber (found ++ rest') = true := startsNumber_taken starts ran
  have ended : (found ++ rest').head?.any isBlank = false := by
    obtain ⟨c, found, rfl⟩ := List.exists_cons_of_ne_nil some
    exact not_blank_of_startsNumber starts'
  have blank' : run isBlank (blanks ++ (found ++ rest')) = (blanks, found ++ rest') :=
    run_append_of allBlank ended
  obtain ⟨front', back'⟩ := Prod.mk.inj blank'
  refine readSigned?_eq_some.2 ⟨signed, ?_, ?_⟩
  · rw [List.append_assoc, back']
    exact starts'
  · rw [List.append_assoc, front', back', ran']
    rfl

/-- A sign in front of no number stays alone, if no number comes after the blanks that follow. -/
theorem readSigned?_none_loosened {c : Char} {more : List Char}
    (h : readSigned? (c :: (more ++ rest)) = none) (loose : Loosens rest rest')
    (plain : c = '+' ∨ c = '-' → ∀ d ∈ more, isBlank d = false)
    (ahead : c = '+' ∨ c = '-' → more = [] →
      startsNumber (rest'.dropWhile isBlank) = true → startsNumber (rest.dropWhile isBlank) = true) :
    readSigned? (c :: (more ++ rest')) = none := by
  cases found : readSigned? (c :: (more ++ rest')) with
  | none => rfl
  | some piece =>
    obtain ⟨signed, starts, _⟩ := readSigned?_eq_some.1 found
    have starts' : startsNumber ((more ++ rest).dropWhile isBlank) = true := by
      cases more with
      | nil => exact ahead signed rfl starts
      | cons d more =>
        have first : isBlank d = false := plain signed d List.mem_cons_self
        rw [List.cons_append, List.dropWhile_cons_of_neg (by simp [first])] at starts ⊢
        exact startsNumber_tight (loose.append (d :: more)) starts
    cases h.symm.trans (readSigned?_eq_some.2 ⟨signed, starts', rfl⟩)

end Signs

section Strings

variable {body word : List Char}

theorem head_of_string? (h : string? cs = some (body, rest)) : rest.head? ≠ some '\x27' := by
  induction cs using string?.induct generalizing body with
  | case1 => simp [string?] at h
  | case2 c cs ih =>
    rw [string?] at h
    obtain ⟨⟨b, r⟩, found, same⟩ := Option.map_eq_some_iff.1 h
    cases same
    exact ih found
  | case3 cs ih =>
    rw [string?] at h
    obtain ⟨⟨b, r⟩, found, same⟩ := Option.map_eq_some_iff.1 h
    cases same
    exact ih found
  | case4 cs single =>
    rw [string?] at h
    · cases h
      intro head
      obtain ⟨ds, rfl⟩ := List.head?_eq_some_iff.1 head
      exact single ds rfl
    · exact single
  | case5 c cs no_escape no_double no_quote ih =>
    rw [string?] at h
    · obtain ⟨⟨b, r⟩, found, same⟩ := Option.map_eq_some_iff.1 h
      cases same
      exact ih found
    all_goals assumption

/-- A string ends where no quote comes after its closing one. -/
theorem string?_loosened (h : string? cs = some (body, rest)) (next : rest'.head? ≠ some '\x27') :
    string? (body ++ rest') = some (body, rest') := by
  induction cs using string?.induct generalizing body with
  | case1 => simp [string?] at h
  | case2 c cs ih =>
    rw [string?] at h
    obtain ⟨⟨b, r⟩, found, same⟩ := Option.map_eq_some_iff.1 h
    cases same
    simp [string?, ih found]
  | case3 cs ih =>
    rw [string?] at h
    obtain ⟨⟨b, r⟩, found, same⟩ := Option.map_eq_some_iff.1 h
    cases same
    simp [string?, ih found]
  | case4 cs single =>
    rw [string?] at h
    · cases h
      rw [List.cons_append, List.nil_append, string?]
      rintro ds rfl
      exact next rfl
    · exact single
  | case5 c cs no_escape no_double no_quote ih =>
    rw [string?] at h
    · obtain ⟨⟨b, r⟩, found, same⟩ := Option.map_eq_some_iff.1 h
      cases same
      have some : cs ≠ [] := by
        rintro rfl
        simp [string?] at found
      obtain ⟨d, ds, rfl⟩ := List.exists_cons_of_ne_nil some
      rw [List.cons_append, string?, ih found]
      · rfl
      · rintro d' ds' rfl _
        exact no_escape d ds rfl rfl
      · rintro ds' rfl _
        exact no_quote rfl
      · rintro rfl
        exact no_quote rfl
    all_goals assumption

theorem readString_loosened (quote : (source ++ rest).head? = some '\x27')
    (h : readString (source ++ rest) = .ok ⟨kind, text, source, rest⟩) (loose : Loosens rest rest') :
    readString (source ++ rest') = .ok ⟨kind, text, source, rest'⟩ := by
  unfold readString at h
  split at h
  case h_1 => cases h
  case h_2 body left found =>
    simp only [Piece.verbatim, Except.ok.injEq, Piece.mk.injEq] at h
    obtain ⟨rfl, rfl, rfl, rfl⟩ := h
    have ended := loose.head_ne (by decide) (head_of_string? found)
    have found' := string?_loosened found ended
    simp [readString, found', Piece.verbatim]

/-- The specifier stands at the front in any case, with a quote after it. -/
def Specifies (cs word : List Char) : Prop :=
  ∃ front more, cs = front ++ '\x27' :: more ∧ lowerChars front = word

theorem specifies_iff : (lowerChars (cs.take word.length) == word &&
    (cs.drop word.length).head? == some '\x27') = true ↔ Specifies cs word := by
  simp only [Bool.and_eq_true, beq_iff_eq]
  constructor
  · rintro ⟨lower, quote⟩
    obtain ⟨more, split⟩ := List.head?_eq_some_iff.1 quote
    exact ⟨cs.take word.length, more, by rw [← split, List.take_append_drop], lower⟩
  · rintro ⟨front, more, rfl, rfl⟩
    have length : (lowerChars front).length = front.length := List.length_map ..
    simp [length]

theorem Specifies.tight (h : Specifies cs' word) (mem : word ∈ specifiers) (loose : Loosens cs cs') :
    Specifies cs word := by
  obtain ⟨front, more, rfl, lower⟩ := h
  have plain : front.any isBlank = false := by
    refine List.any_eq_false.2 fun c inside blank => ?_
    have kept : blankChars.all (fun c => c.toLower == c) = true := by decide
    have apart : specifiers.all (fun word => !word.any isBlank) = true := by decide
    have found : c ∈ word := by
      rw [← lower, lowerChars, List.mem_map]
      exact ⟨c, inside, eq_of_beq (List.all_eq_true.1 kept c (mem_blankChars blank))⟩
    have none : word.any isBlank = false := by simpa using List.all_eq_true.1 apart word mem
    exact List.any_eq_false.1 none c found blank
  have starts : front ++ ['\x27'] <+: cs := by
    refine loose.front ?_ ⟨more, by simp⟩
    rw [List.any_append, plain]
    rfl
  obtain ⟨back, rfl⟩ := starts
  exact ⟨front, back, by simp, lower⟩

theorem specifier?_none_loosened (h : specifier? cs = none) (loose : Loosens cs cs') :
    specifier? cs' = none := by
  refine find?_none_of_fewer h fun word mem passes => ?_
  exact specifies_iff.2 ((specifies_iff.1 passes).tight mem loose)

theorem readSpecified_loosened (found : specifier? (source ++ rest) = some word)
    (h : readSpecified word (source ++ rest) = .ok ⟨kind, text, source, rest⟩)
    (loose : Loosens rest rest') : specifier? (source ++ rest') = some word ∧
      readSpecified word (source ++ rest') = .ok ⟨kind, text, source, rest'⟩ := by
  have passes := List.find?_some found
  obtain ⟨front, more, split, lower⟩ := specifies_iff.1 passes
  have length : word.length = front.length := by rw [← lower]; exact List.length_map ..
  have taken : (source ++ rest).take word.length = front := by rw [split, length, List.take_left]
  have dropped : (source ++ rest).drop word.length = '\x27' :: more := by
    rw [split, length, List.drop_left]
  obtain ⟨⟨kind₁, text₁, quoted, left⟩, read, same⟩ := Except.map_eq_ok.1 h
  simp only [taken, Piece.mk.injEq] at same
  obtain ⟨rfl, rfl, rfl, rfl⟩ := same
  rw [dropped] at read
  have splits := readString_splits rfl read
  have whole : quoted ++ left = '\x27' :: more := splits.1
  have read' : readString (quoted ++ rest') = .ok ⟨kind₁, text₁, quoted, rest'⟩ := by
    refine readString_loosened ?_ (by rwa [whole]) loose
    rw [whole]
    rfl
  have again : (front ++ quoted ++ rest').drop word.length = quoted ++ rest' := by
    rw [List.append_assoc, length, List.drop_left]
  have front' : (front ++ quoted ++ rest').take word.length = front := by
    rw [List.append_assoc, length, List.take_left]
  constructor
  · refine find?_of_fewer found (fun other mem passes => ?_) (specifies_iff.2 ?_)
    · exact specifies_iff.2 ((specifies_iff.1 passes).tight mem (loose.append _))
    · obtain ⟨c, quoted, rfl⟩ := List.exists_cons_of_ne_nil splits.2
      obtain rfl : c = '\x27' := by simpa using congrArg List.head? whole
      exact ⟨front, quoted ++ rest', by simp, lower⟩
  · simp only [readSpecified, again, front', read', Except.map]

end Strings

/-- A literal stays what it is. -/
theorem read?_loosened {operand : Bool}
    (h : read? operand (source ++ rest) = some (.ok ⟨kind, text, source, rest⟩))
    (loose : Loosens rest rest') (points : IsWhole source → KeepsPoints rest rest') :
    read? operand (source ++ rest') = some (.ok ⟨kind, text, source, rest'⟩) := by
  have some : source ≠ [] := (read?_splits h).2
  have head : (source ++ rest').head? = (source ++ rest).head? := by
    obtain ⟨c, more, rfl⟩ := List.exists_cons_of_ne_nil some
    rfl
  unfold read? at h ⊢
  rw [head]
  split at h
  case isTrue quote =>
    rw [if_pos quote, readString_loosened (by simpa using quote) (Option.some.inj h) loose]
  case isFalse quote =>
    rw [if_neg quote]
    split at h
    case h_1 word found =>
      obtain ⟨found', read⟩ := readSpecified_loosened found (Option.some.inj h) loose
      simp only [found', read]
    case h_2 none =>
      simp only [specifier?_none_loosened none (loose.append source)]
      split at h
      case isTrue starts =>
        have read := Except.ok.inj (Option.some.inj h)
        obtain ⟨starts', read'⟩ := readNumber_loosened starts read loose fun digits =>
          points ⟨[], source, rfl, digits, .inl rfl⟩
        rw [if_pos starts', read']
      case isFalse other =>
        have other' : ¬ startsNumber (source ++ rest') = true :=
          fun starts => other (startsNumber_tight (loose.append source) starts)
        rw [if_neg other']
        split at h
        case isFalse => cases h
        case isTrue expected =>
          obtain ⟨piece, found, same⟩ := Option.map_eq_some_iff.1 h
          cases same
          rw [if_pos expected, readSigned?_loosened found loose points]
          rfl

/-- What is no literal does not become one, if no sign meets a number. -/
theorem read?_none_loosened {operand : Bool} {c : Char} {more : List Char}
    (h : read? operand (c :: (more ++ rest)) = none) (loose : Loosens rest rest')
    (plain : c = '+' ∨ c = '-' → ∀ d ∈ more, isBlank d = false)
    (ahead : operand = true → c = '+' ∨ c = '-' → more = [] →
      startsNumber (rest'.dropWhile isBlank) = true → startsNumber (rest.dropWhile isBlank) = true) :
    read? operand (c :: (more ++ rest')) = none := by
  have loose' : Loosens (c :: (more ++ rest)) (c :: (more ++ rest')) := loose.append (c :: more)
  rw [read?, List.head?_cons] at h ⊢
  by_cases quote : (some c == some '\x27') = true
  · rw [if_pos quote] at h
    cases h
  rw [if_neg quote] at h ⊢
  split at h
  case h_1 => cases h
  case h_2 none =>
    rw [specifier?_none_loosened none loose']
    dsimp only
    by_cases starts : startsNumber (c :: (more ++ rest)) = true
    · rw [if_pos starts] at h
      cases h
    rw [if_neg starts] at h
    rw [if_neg fun starts' => starts (startsNumber_tight loose' starts')]
    cases operand with
    | false => rfl
    | true =>
      rw [if_pos rfl, Option.map_eq_none_iff] at h ⊢
      exact readSigned?_none_loosened h loose plain (ahead rfl)

end SqlQuery.Lexeme.Literal
