import SqlQuery.Proofs.Scanning.Legible
import SqlQuery.Proofs.Scanning.Mark

/-!
Texts of words that are no keyword together: the names of types, and words that mean something only
where they stand.
-/

namespace SqlQuery

open Mark

variable {d : Dialect} {previous : Option Token} {cs : List Char}

/-- A word in lowercase that is scanned by itself, as a keyword or as a name. -/
def readsApart (w : List Char) : Bool :=
  isWordText w && w == Text.lowerChars w && !Keyword.goesOn w

theorem Scans.apart {w : List Char} {ts : List Token} (apart : readsApart w = true)
    (boundary : Boundary cs) (later : Scans d (some (Token.ofWord (String.ofList w))) cs ts) :
    Scans d previous (w ++ cs) (Token.ofWord (String.ofList w) :: ts) := by
  simp only [readsApart, Bool.and_eq_true, Bool.not_eq_true', beq_iff_eq] at apart
  obtain ⟨⟨isWord, lower⟩, single⟩ := apart
  have word := isWordText_of isWord
  have chars : (String.ofList w).toList = w := String.toList_ofList
  have same : Text.lower (String.ofList w) = String.ofList w := by
    rw [Text.lower, chars, ← lower]
  have alone : Lexeme.Name.longerKeyword? (String.ofList w) cs = none :=
    Lexeme.Name.longerKeyword?_alone (by rw [Keyword.isExtendable_ofList, single])
  have phrase := not_phrase word
  rw [← lower] at phrase
  by_cases reserved : Keyword.isReserved (String.ofList w) = true
  · have complete : Keyword.isComplete (String.ofList w) = true := by
      simp [Keyword.isComplete, reserved]
    rw [Token.ofWord, if_pos reserved] at later ⊢
    have scanned : Scans d previous ((String.ofList w).toList ++ cs) _ :=
      .keyword complete boundary alone later
    rwa [chars] at scanned
  · have plain : Keyword.isComplete (String.ofList w) = false := by
      rw [Keyword.isComplete, phrase, Bool.or_false]
      simpa using reserved
    rw [Token.ofWord, if_neg reserved] at later ⊢
    have scanned : Scans d previous ((String.ofList w).toList ++ cs) _ :=
      .next (.bare (by rwa [chars]) boundary (by rwa [same]) (by rwa [same]))
        (fun same => Kind.noConfusion same) later
    rwa [chars] at scanned

def wordTokens (ws : List (List Char)) : List Token :=
  ws.map fun w => Token.ofWord (String.ofList w)

/-- Words with blanks in front of them are scanned one by one. -/
theorem Scans.words {ws : List (List Char)} {ts : List Token} (apart : ws.all readsApart = true)
    (boundary : Boundary cs) (later : Scans d (lastOf previous (wordTokens ws)) cs ts) :
    Scans d previous (ws.flatMap (' ' :: ·) ++ cs) (wordTokens ws ++ ts) := by
  induction ws generalizing previous with
  | nil => exact later
  | cons w ws ih =>
    simp only [List.all_cons, Bool.and_eq_true] at apart
    have rest : Scans d (some (Token.ofWord (String.ofList w))) (ws.flatMap (' ' :: ·) ++ cs)
        (wordTokens ws ++ ts) := by
      refine ih apart.2 ?_
      have last : lastOf previous (wordTokens (w :: ws)) =
          lastOf (some (Token.ofWord (String.ofList w))) (wordTokens ws) :=
        lastOf_append previous [_] (wordTokens ws)
      rwa [last] at later
    have split : (w :: ws).flatMap (' ' :: ·) ++ cs =
        ' ' :: (w ++ (ws.flatMap (' ' :: ·) ++ cs)) := by simp
    rw [split]
    exact .blank (by decide)
      (.apart apart.1 (Lexeme.Name.spaced_boundary ws boundary) rest)

/-- The words of a text are scanned one by one into what the text stands for. -/
def readsByWord (text : String) : Bool :=
  match blankSplit text.toList with
  | [] => false
  | w :: ws => (w :: ws).all readsApart && text.toList == w ++ ws.flatMap (' ' :: ·) &&
      plainTokens text == wordTokens (w :: ws)

namespace Stands

/-- A text of several words. -/
theorem words {text : String} (h : readsByWord text = true) (boundary : Boundary cs) :
    Stands d previous [.plain text] cs := by
  unfold readsByWord at h
  split at h
  · cases h
  rename_i w ws _
  simp only [List.all_cons, Bool.and_eq_true, beq_iff_eq] at h
  obtain ⟨⟨⟨first, others⟩, chars⟩, tokens⟩ := h
  have seen : read [.plain text] = wordTokens (w :: ws) := by simp [Mark.tokens, tokens]
  intro ts later
  have last : lastOf previous (wordTokens (w :: ws)) =
      lastOf (some (Token.ofWord (String.ofList w))) (wordTokens ws) :=
    lastOf_append previous [_] (wordTokens ws)
  rw [lastRead, seen, last] at later
  have spelled : (Mark.plain text).spell d = w ++ ws.flatMap (' ' :: ·) := chars
  rw [spellAll_singleton, spelled, seen, List.append_assoc]
  exact .apart first (Lexeme.Name.spaced_boundary ws boundary) (.words others boundary later)

/-- A bare name that stands for itself. -/
theorem bare {text : String} (word : IsWord text) (lower : IsLower text)
    (chars : IsWordText text.toList) (boundary : Boundary cs)
    (alone : Lexeme.Name.longerKeyword? text cs = none) : Stands d previous [rawMark text] cs := by
  have plain : Keyword.isComplete (Text.lower text) = false := by
    rw [lower]
    cases complete : Keyword.isComplete text with
    | false => rfl
    | true =>
      have other := word.2
      simp [plainTokens, complete] at other
  rw [rawMark, word.1.trim]
  refine .word chars word.2 plain boundary ?_
  rwa [lower]

theorem typeName {name : String} (isName : IsTypeName name)
    (legible : name ∈ longTypes ∨ IsWordText name.toList) (boundary : Boundary cs)
    (alone : Lexeme.Name.longerKeyword? name cs = none) : Stands d previous [rawMark name] cs := by
  by_cases long : name ∈ longTypes
  · have facts : ∀ name ∈ longTypes, Text.trim name = name ∧ readsByWord name = true := by
      decide +kernel
    obtain ⟨trim, apart⟩ := facts name long
    rw [rawMark, trim]
    exact .words apart boundary
  · obtain ⟨word, lower⟩ := isName.resolve_left long
    exact .bare word lower (legible.resolve_left long) boundary alone

end Stands

/-- Words that mean something where they stand and are ordinary names elsewhere. -/
def contextWords : List String :=
  ["rows", "range", "groups", "unbounded", "preceding", "following", "current", "row", "first",
   "next", "only", "percent", "ties", "update", "no", "key", "share"]

theorem contextWords_read : ∀ text ∈ contextWords, readsByWord text = true := by
  decide +kernel

end SqlQuery
