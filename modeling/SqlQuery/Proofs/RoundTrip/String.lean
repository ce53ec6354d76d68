import SqlQuery.Proofs.Scanning.Literal
import SqlQuery.Proofs.Spacing.Scan
import SqlQuery.Proofs.Written.Step

/-!
Strings in quotes. A string that is written is scanned back as the same string exactly if no odd run of
backslashes in it stands in front of a quote or at the end, and no string that was scanned has such a
run.
-/

namespace SqlQuery

/-- Every whole run of backslashes with a quote or nothing after it has an even number of them. -/
def EvenBackslashes (cs : List Char) : Prop :=
  ∀ before count after, cs = before ++ (List.replicate count '\\' ++ after) →
    before.getLast? ≠ some '\\' → (∀ c ∈ after.head?, c = '\x27') → count % 2 = 0

section

variable {c : Char} {cs front body rest : List Char}

theorem isClosedBody_append (h : isClosedBody (front ++ cs) = true)
    (ended : front.getLast? ≠ some '\\') : isClosedBody cs = true := by
  induction front using backslash_induction with
  | nil => exact h
  | pair c front ih =>
    simp only [List.cons_append, isClosedBody, Bool.and_eq_true] at h
    refine ih h.2 fun last => ended ?_
    rw [List.getLast?_cons_cons, List.getLast?_cons, last]
    rfl
  | lone => exact absurd rfl ended
  | plain c front plain ih =>
    rw [List.cons_append, isClosedBody_cons plain] at h
    refine ih h fun last => ended ?_
    rw [List.getLast?_cons, last]
    rfl

theorem even_of_isClosedBody (count : Nat)
    (h : isClosedBody (List.replicate count '\\' ++ cs) = true) (ended : ∀ c ∈ cs.head?, c = '\x27') :
    count % 2 = 0 := by
  induction count using Nat.twoStepInduction with
  | zero => rfl
  | one =>
    cases cs with
    | nil => cases h
    | cons c cs =>
      obtain rfl := ended c rfl
      cases h
  | more count ih =>
    simp only [List.replicate_succ, List.cons_append, isClosedBody, Bool.and_eq_true] at h
    have even := ih h.2
    omega

namespace EvenBackslashes

theorem of_append (front : List Char) (h : EvenBackslashes (front ++ cs))
    (ended : front.getLast? ≠ some '\\') : EvenBackslashes cs := by
  intro before count after split last next
  refine h (front ++ before) count after (by rw [split, List.append_assoc]) ?_ next
  rw [List.getLast?_append]
  cases found : before.getLast? with
  | none => simpa using ended
  | some c => simpa [found] using last

theorem of_pair (h : EvenBackslashes ('\\' :: '\\' :: cs)) : EvenBackslashes cs := by
  intro before count after split last next
  cases before with
  | nil =>
    have even := h [] (count + 2) after (by rw [split]; rfl) (by simp) next
    omega
  | cons c before =>
    refine h ('\\' :: '\\' :: c :: before) count after (by rw [split]; rfl) ?_ next
    rwa [List.getLast?_cons_cons, List.getLast?_cons_cons]

end EvenBackslashes

theorem isClosedBody_iff : isClosedBody cs = true ↔ EvenBackslashes cs := by
  constructor
  · rintro h before count after rfl last next
    exact even_of_isClosedBody count (isClosedBody_append h last) next
  intro h
  induction cs using backslash_induction with
  | nil => rfl
  | pair c cs ih =>
    have other : c ≠ '\x27' := by
      rintro rfl
      exact absurd (h [] 1 ('\x27' :: cs) rfl (by simp) (by simp)) (by decide)
    -- A pair of backslashes leaves the parity of its run as it is, and any other pair ends the run.
    have rest : EvenBackslashes cs := by
      by_cases same : c = '\\'
      · exact (same ▸ h).of_pair
      · exact EvenBackslashes.of_append ['\\', c] h (by simpa using same)
    simp [isClosedBody, other, ih rest]
  | lone => exact absurd (h [] 1 [] rfl (by simp) (by simp)) (by decide)
  | plain c cs plain ih =>
    rw [isClosedBody_cons plain]
    exact ih (EvenBackslashes.of_append [c] h (by simpa using plain))

open Lexeme.Literal

/-- What is put in front of the body of a string leaves the rest of the text alone. -/
theorem string?_inner {found : Option (List Char × List Char)} (before : List Char)
    (h : found.map (fun (body, rest) => (before ++ body, rest)) = some (body, rest)) :
    ∃ inner, found = some (inner, rest) ∧ body = before ++ inner := by
  obtain ⟨⟨inner, left⟩, found, same⟩ := Option.map_eq_some_iff.1 h
  obtain ⟨rfl, rfl⟩ := Prod.mk.inj same
  exact ⟨inner, found, rfl⟩

/-- Behind one quote too many a doubled text does not end where it should. -/
theorem string?_quote_doubled (value : List Char) :
    string? ('\x27' :: (Text.doubled '\x27' value ++ ['\x27'])) ≠ some (body, []) := by
  induction value generalizing body with
  | nil => simp [string?]
  | cons c value ih =>
    by_cases quote : c = '\x27'
    · subst quote
      rw [Text.doubled_cons_self]
      simp only [List.cons_append]
      rw [string?]
      intro h
      obtain ⟨inner, found, -⟩ := string?_inner ['\x27', '\x27'] h
      exact ih found
    · rw [Text.doubled_cons_of_ne quote, List.cons_append, string?]
      · simp
      · exact fun _ same => quote (List.cons.inj same).1

/-- Doubled quotes end a text in the right place only if no backslash hides one of them. -/
theorem closed_of_string? (value : List Char)
    (h : string? (Text.doubled '\x27' value ++ ['\x27']) = some (body, [])) :
    isClosedBody value = true := by
  induction value using backslash_induction generalizing body with
  | nil => rfl
  | pair c value ih =>
    rw [Text.doubled_cons_of_ne (by decide)] at h
    by_cases quote : c = '\x27'
    · subst quote
      rw [Text.doubled_cons_self] at h
      simp only [List.cons_append] at h
      rw [string?] at h
      obtain ⟨inner, found, -⟩ := string?_inner ['\\', '\x27'] h
      exact absurd found (string?_quote_doubled value)
    · rw [Text.doubled_cons_of_ne quote] at h
      simp only [List.cons_append] at h
      rw [string?] at h
      obtain ⟨inner, found, -⟩ := string?_inner ['\\', c] h
      simp [isClosedBody, quote, ih found]
  | lone => simp [Text.doubled, string?] at h
  | plain c value plain ih =>
    rw [isClosedBody_cons plain]
    by_cases quote : c = '\x27'
    · subst quote
      rw [Text.doubled_cons_self] at h
      simp only [List.cons_append] at h
      rw [string?] at h
      obtain ⟨inner, found, -⟩ := string?_inner ['\x27', '\x27'] h
      exact ih found
    · rw [Text.doubled_cons_of_ne quote, List.cons_append, string?_cons plain quote] at h
      obtain ⟨inner, found, -⟩ := string?_inner [c] h
      exact ih found

/-- The body of a string that was read ends with its quote, and its value hides none. -/
theorem string?_closed (h : string? cs = some (body, rest)) :
    ∃ inner, body = inner ++ ['\x27'] ∧ isClosedBody (unescape inner) = true := by
  induction cs using string?.induct generalizing body with
  | case1 => cases h
  | case2 c cs ih =>
    rw [string?] at h
    obtain ⟨_, found, rfl⟩ := string?_inner ['\\', c] h
    obtain ⟨inner, rfl, closed⟩ := ih found
    refine ⟨'\\' :: c :: inner, rfl, ?_⟩
    by_cases quote : c = '\x27'
    · subst quote
      rw [unescape, isClosedBody_cons (by decide), closed]
    · rw [unescape]
      · simp [isClosedBody, quote, closed]
      · exact quote
  | case3 cs ih =>
    rw [string?] at h
    obtain ⟨_, found, rfl⟩ := string?_inner ['\x27', '\x27'] h
    obtain ⟨inner, rfl, closed⟩ := ih found
    refine ⟨'\x27' :: '\x27' :: inner, rfl, ?_⟩
    rw [unescape, List.drop_succ_cons, List.drop_zero, isClosedBody_cons (by decide), closed]
  | case4 cs single =>
    rw [string?] at h
    · obtain ⟨rfl, -⟩ := Prod.mk.inj (Option.some.inj h)
      exact ⟨[], rfl, by rw [unescape]; rfl⟩
    · exact single
  | case5 c cs pair double single ih =>
    have other : c ≠ '\x27' := single
    rw [string?] at h
    · obtain ⟨_, found, rfl⟩ := string?_inner [c] h
      obtain ⟨inner, rfl, closed⟩ := ih found
      have plain : c ≠ '\\' := by
        rintro rfl
        cases cs with
        | nil => cases found
        | cons d cs => exact pair d cs rfl rfl
      refine ⟨c :: inner, rfl, ?_⟩
      rw [unescape_cons plain other, isClosedBody_cons plain, closed]
    all_goals assumption

/-- A number begins with a digit or a sign. -/
theorem number_head (starts : startsNumber cs = true) :
    (numberText (number cs).1).head? ≠ some '\x27' := by
  obtain ⟨c, rest, text, digit⟩ := numberText_start starts
  simpa [text] using ne_of_digit digit (by decide)

theorem readSigned?_head {piece : Piece} (h : readSigned? cs = some piece) :
    piece.text.toList.head? ≠ some '\x27' := by
  unfold readSigned? at h
  split at h
  case h_1 sign digits =>
    dsimp only at h
    split at h
    case isTrue starts =>
      cases h
      rw [Bool.and_eq_true] at starts
      rw [String.toList_ofList]
      split
      · simp
      · exact number_head starts.2
    case isFalse => cases h
  case h_2 => cases h

/-- A literal that begins with a quote is a string. -/
theorem quote_of_read? {operand : Bool} {piece : Piece} (h : read? operand cs = some (.ok piece))
    (literal : piece.kind = .literal) (quoted : isQuoted piece.text = true) :
    cs.head? = some '\x27' := by
  rw [isQuoted, beq_iff_eq] at quoted
  unfold read? at h
  split at h
  case isTrue quote => simpa using quote
  split at h
  · have kind := readSpecified_kind (Option.some.inj h)
    rw [literal] at kind
    cases kind
  split at h
  case isTrue starts =>
    cases h
    rw [readNumber, String.toList_ofList] at quoted
    exact absurd quoted (number_head starts)
  split at h
  · obtain ⟨signed, found, same⟩ := Option.map_eq_some_iff.1 h
    cases same
    exact absurd quoted (readSigned?_head found)
  · cases h

theorem readString_of_read {previous : Option Token} {ordinal : Nat} {piece : Piece}
    (h : Piece.read previous ordinal c cs = .ok piece) (literal : piece.kind = .literal)
    (quoted : isQuoted piece.text = true) : readString (c :: cs) = .ok piece := by
  obtain rfl : c = '\x27' := by
    simpa using quote_of_read? (Piece.read_literal_kind h literal) literal quoted
  rwa [Piece.read_string] at h

/-- The value of a string that was read hides no quote. -/
theorem closed_of_readString {piece : Piece} (h : readString cs = .ok piece) :
    isClosedBody (unquote piece.text.toList).toList = true := by
  unfold readString at h
  split at h
  · cases h
  case h_2 body rest found =>
    cases h
    obtain ⟨inner, rfl, closed⟩ := string?_closed found
    simpa [Piece.verbatim, unquote, withoutQuotes] using closed

theorem closed_of_scan {text : String} {ls : List Lexeme} {l : Lexeme}
    (h : (scan text).2 = .ok ls) (mem : l ∈ ls) (literal : l.kind = .literal)
    (quoted : isQuoted l.text = true) : isClosedBody (unquote l.text.toList).toList = true := by
  obtain ⟨_, _, _, c, rest, piece, read, rfl⟩ := Scan.read_of_mem (Scan.run_of_scan h) mem
  exact closed_of_readString (readString_of_read read literal quoted)

end

/-- The text is scanned into one literal, which is all of the text and stands for the string. -/
def IsStringText (text value : String) : Prop :=
  ∃ l, scan text = ([], .ok [l]) ∧ l.kind = .literal ∧ l.position = 0 ∧
    l.stop = text.utf8ByteSize ∧ unquote l.text.toList = value

theorem isStringText_iff (value : String) :
    IsStringText (String.ofList (spellString value)) value ↔ isClosedBody value.toList = true := by
  constructor
  · rintro ⟨l, scanned, -, starts, stops, -⟩
    have ran := Scan.run_of_scan (congrArg Prod.snd scanned)
    have ran : (Scan.run none 0 0 ([] ++ (spellString value ++ []))).outcome = .ok [l] := by
      rwa [String.toList_ofList, ← List.append_nil (spellString value)] at ran
    have size : l.stop = l.position + Text.size (spellString value) := by
      rw [stops, starts, ← Text.size_toList, String.toList_ofList, Nat.zero_add]
    obtain ⟨c, more, split, -, -, read, -⟩ := Scan.run_next ran starts size
    obtain ⟨rfl, rfl⟩ := List.cons.inj split
    rw [Piece.read_string, List.append_nil] at read
    unfold Lexeme.Literal.readString at read
    split at read
    · cases read
    case h_2 body rest found =>
      obtain rfl : rest = [] := congrArg Piece.rest (Except.ok.inj read)
      exact closed_of_string? value.toList found
  · intro closed
    let piece : Piece := ⟨.literal, String.ofList (spellString value), spellString value, []⟩
    have front : piece.Heads none (spellString value ++ []) := .string closed (by simp)
    have ran := Scan.run_heads front 0 0
    rw [List.append_nil, Scan.run_nil] at ran
    refine ⟨piece.lexemeAt 0, ?_, rfl, rfl, ?_, ?_⟩
    · rw [scan, String.toList_ofList, ran]
      rfl
    · rw [← Text.size_toList, String.toList_ofList]
      exact Nat.zero_add _
    · exact (congrArg unquote String.toList_ofList).trans (unquote_spellString closed)

/-- Exactly those strings are scanned back as they are written in which no odd run of backslashes hides
a quote or the end, and every string that stands in a scanned text is one of them. -/
theorem scan_written_string (d : Dialect) (limit : Nat) :
    (∀ value, ∃ text, (Node.expr (.string value)).write d (limit + 1) = .ok text ∧
      (IsStringText text value ↔ EvenBackslashes value.toList)) ∧
    ∀ source ls, (scan source).2 = .ok ls → ∀ l ∈ ls, l.kind = .literal → isQuoted l.text = true →
      ∃ text, (Node.expr (.string (unquote l.text.toList))).write d (limit + 1) = .ok text ∧
        IsStringText text (unquote l.text.toList) := by
  have written (value : String) : (Node.expr (.string value)).write d (limit + 1) =
      .ok (String.ofList (spellString value)) := by
    refine Node.write_ok_iff.2 ⟨rfl, ?_⟩
    simp [Node.marks, Expr.marks, Expr.string, Mark.spellAll, Mark.spell, Literal.spell]
  refine ⟨fun value => ⟨_, written value, (isStringText_iff value).trans isClosedBody_iff⟩, ?_⟩
  intro source ls scanned l mem literal quoted
  exact ⟨_, written _, (isStringText_iff _).2 (closed_of_scan scanned mem literal quoted)⟩

/-- One backslash that is written would hide the quote after it, and none that is scanned does. -/
theorem scan_written_string_backslash :
    (scan "'it''s a \\'\\n'").2 =
        .ok [⟨⟨.literal, "'it''s a \\'\\n'"⟩, 0, 14⟩] ∧
      (∃ text, (Node.expr (.string "it's a '\\n")).write .standard 1 = .ok text ∧
        IsStringText text "it's a '\\n") ∧
      ∃ text, (Node.expr (.string "\\")).write .standard 1 = .ok text ∧ ¬ IsStringText text "\\" := by
  obtain ⟨exactly, always⟩ := scan_written_string .standard 0
  have scanned : (scan "'it''s a \\'\\n'").2 =
      .ok [⟨⟨.literal, "'it''s a \\'\\n'"⟩, 0, 14⟩] := by decide +kernel
  have value : unquote "'it''s a \\'\\n'".toList = "it's a '\\n" := by decide +kernel
  have survives := always _ _ scanned _ (List.mem_singleton.2 rfl) rfl (by decide +kernel)
  obtain ⟨text, written, iff⟩ := exactly "\\"
  have odd : ¬ EvenBackslashes "\\".toList := by
    intro even
    exact absurd (even [] 1 [] (by decide +kernel) (by simp) (by simp)) (by decide)
  exact ⟨scanned, value ▸ survives, text, written, fun same => odd (iff.1 same)⟩

end SqlQuery
