import SqlQuery.Proofs.Scanning.Legible
import SqlQuery.Proofs.Scanning.Name
import SqlQuery.Proofs.Written.Known

/-!
Texts that are written as they are: operators and keywords by their tables, and bare words that no
keyword is made of.
-/

namespace SqlQuery

/-- A text without white space around it that is no mark of its own is written as it is. -/
def isPlainText (text : String) : Bool :=
  Text.trim text == text && !text.isEmpty && !invalidKeywords.contains text

theorem isPlain_of {text : String} (h : isPlainText text = true) : IsPlain text := by
  simp only [isPlainText, Bool.and_eq_true, beq_iff_eq, Bool.not_eq_true'] at h
  obtain ⟨⟨trim, nonempty⟩, valid⟩ := h
  simp only [IsPlain, rawText, trim, nonempty, valid, Bool.false_eq_true, if_false]

theorem isPlain_iff {text : String} : IsPlain text ↔ isPlainText text = true := by
  refine ⟨fun plain => ?_, isPlain_of⟩
  have trim := plain.trim
  unfold IsPlain rawText at plain
  rw [trim] at plain
  dsimp only at plain
  split at plain
  · cases plain
  split at plain
  · cases plain
  · rename_i nonempty valid
    simpa [isPlainText, trim, nonempty] using valid

instance (text : String) : Decidable (IsPlain text) := decidable_of_iff _ isPlain_iff.symm

instance (text : String) : Decidable (IsWord text) :=
  inferInstanceAs (Decidable (IsPlain text ∧ plainTokens text = [⟨.identifier, text⟩]))

/-- Keywords are written as they are. -/
theorem isPlain_of_complete {text : String} (h : Keyword.isComplete text = true) : IsPlain text := by
  have valid : ∀ letters ∈ Keyword.reservedLetters ++ Keyword.phraseLetters,
      (String.ofList letters).isEmpty = false ∧
        invalidKeywords.contains (String.ofList letters) = false := by
    decide +kernel
  refine isPlain_of ?_
  rw [isPlainText, Keyword.trim_of_complete h]
  obtain ⟨letters, mem, rfl⟩ := Keyword.isComplete_letters h
  obtain ⟨some, other⟩ := valid letters mem
  rw [some, other, beq_self_eq_true]
  rfl

theorem infix_plain {operator : String} {power : Nat} (found : Power.infix? operator = some power) :
    IsPlain operator := by
  have valid : ∀ entry ∈ Power.symbols, isPlainText entry.1 = true := by decide +kernel
  rcases List.mem_append.1 (Power.infix?_mem found) with keyword | symbol
  · exact isPlain_of_complete (Power.keywords_complete (operator, power) keyword)
  · exact isPlain_of (valid (operator, power) symbol)

theorem prefixes_plain : ∀ entry ∈ Power.prefixes, isPlainText entry.1 = true := by
  decide +kernel

theorem join_plain {kind : String} (mem : kind ∈ joinKinds) : IsPlain kind :=
  isPlain_of_complete (joinKinds_complete kind mem)

theorem set_plain {operator : String} (mem : operator ∈ Grammar.setOperators) : IsPlain operator :=
  isPlain_of_complete (setOperators_complete operator mem)

theorem dropWhile_of_none {α : Type} {p : α → Bool} {as : List α} (none : ∀ a ∈ as, p a = false) :
    as.dropWhile p = as := by
  cases as with
  | nil => rfl
  | cons a as => simp [none a List.mem_cons_self]

theorem trim_of_none {text : String} (none : ∀ c ∈ text.toList, Text.isWhiteSpace c = false) :
    Text.trim text = text := by
  rw [Text.trim, Text.trimChars, dropWhile_of_none none, dropWhile_of_none, List.reverse_reverse,
    String.ofList_toList]
  exact fun c mem => none c (List.mem_reverse.1 mem)

/-- What a bare word is made of. -/
def isBareChar (c : Char) : Bool := Text.isAlphanum c || c == '_' || c == '$'

theorem not_whiteSpace {c : Char} (bare : isBareChar c = true) : Text.isWhiteSpace c = false := by
  have range : 36 ≤ c.toNat ∧ c.toNat ≤ 122 := by
    delta isBareChar Text.isAlphanum Char.isAlpha Char.isUpper Char.isLower at bare
    simp only [Char.isDigit, Bool.or_eq_true, Bool.and_eq_true, decide_eq_true_eq, beq_iff_eq, UInt32.le_iff_toNat_le]
      at bare
    rcases bare with (((upper | lower) | digit) | rfl) | rfl
    · simp at upper
      exact ⟨by omega, by omega⟩
    · simp at lower
      exact ⟨by omega, by omega⟩
    · simp at digit
      exact ⟨by omega, by omega⟩
    · decide
    · decide
  simp [Text.isWhiteSpace, Text.whiteSpaceRanges]
  omega

theorem isBareChar_of {name : String} (bare : isBareWord name = true) :
    ∀ c ∈ name.toList, isBareChar c = true := by
  unfold isBareWord at bare
  split at bare
  · cases bare
  rename_i c cs chars
  simp only [Bool.and_eq_true, List.all_eq_true] at bare
  obtain ⟨first, others⟩ := bare
  rw [chars]
  refine List.forall_mem_cons.2 ⟨?_, fun c mem => others c mem⟩
  simp only [isBareChar, Text.isAlphanum, Bool.or_eq_true] at first ⊢
  exact .inl (first.imp .inl id)

theorem blankSplit_single {cs : List Char} (single : ' ' ∉ cs) : blankSplit cs = [cs] := by
  induction cs with
  | nil => rfl
  | cons c cs ih =>
    simp only [List.mem_cons, not_or] at single
    simp [blankSplit, ih single.2, Ne.symm single.1]

/-- A bare word that is no keyword is written as it is, and one name for the grammar. -/
theorem isWord_of_bare {name : String} (bare : isBareWord name = true)
    (plain : Keyword.isComplete name = false) : IsWord name := by
  have chars := isBareChar_of bare
  have valid : ∀ text ∈ invalidKeywords ++ Lexeme.Symbol.compounds, isBareWord text = false := by
    decide
  have apart (text : String) (mem : text ∈ invalidKeywords ++ Lexeme.Symbol.compounds) :
      name ≠ text := by
    rintro rfl
    rw [valid name mem] at bare
    cases bare
  have nonempty : name ≠ "" := by
    rintro rfl
    cases bare
  constructor
  · refine isPlain_of ?_
    have trim := trim_of_none fun c mem => not_whiteSpace (chars c mem)
    have other : name ∉ invalidKeywords :=
      fun mem => apart name (List.mem_append_left _ mem) rfl
    simp [isPlainText, trim, nonempty, other]
  · have compound : Lexeme.Symbol.compounds.contains name = false := by
      rw [List.contains_eq_mem, decide_eq_false_iff_not]
      exact fun mem => apart name (List.mem_append_right _ mem) rfl
    have single (c : Char) (one : name.toList = [c]) :
        Lexeme.Symbol.punctuation? c = none ∧ Text.isOperatorChar c = false := by
      have isBare := chars c (by simp [one])
      have marks : ∀ c ∈ Text.operatorChars ++ ['(', ')', '[', ']', ',', '.', ';'],
          isBareChar c = false := List.all_iff_forall_prop.1 (by decide)
      have other (e : Char) (mem : e ∈ Text.operatorChars ++ ['(', ')', '[', ']', ',', '.', ';']) :
          c ≠ e := by
        rintro rfl
        rw [marks c mem] at isBare
        cases isBare
      constructor
      · simp [Lexeme.Symbol.punctuation?, other]
      · rw [Text.isOperatorChar, List.contains_eq_mem, decide_eq_false_iff_not]
        exact fun mem => other c (List.mem_append_left _ mem) rfl
    have kind : punctuationKind? name = none := by
      unfold punctuationKind?
      split
      · rename_i c one
        exact (single c one).1
      · rfl
    have symbol : isSymbol name = false := by
      unfold isSymbol
      rw [compound, Bool.false_or]
      split
      · rename_i c one
        exact (single c one).2
      · rfl
    have space : ' ' ∉ name.toList := by
      intro mem
      have blank := chars ' ' mem
      revert blank
      decide
    have reserved : Keyword.isReserved name = false := by
      simp only [Keyword.isComplete, Bool.or_eq_false_iff] at plain
      exact plain.1
    simp [plainTokens, plain, kind, symbol, blankSplit_single space, Token.ofWord, reserved]

/-- A word in lowercase that is no keyword and that no keyword begins with. -/
structure IsFreeWord (word : String) : Prop where
  bare : isBareWord word = true
  lower : Text.lower word = word
  plain : Keyword.isReserved word = false
  single : Keyword.isExtendable word = false

namespace IsFreeWord

variable {word : String} (h : IsFreeWord word)

include h

theorem isWord : IsWord word := by
  refine isWord_of_bare h.bare ?_
  have phrase := not_phrase (isWordText_of_bare h.bare)
  have same : String.ofList (Text.lowerChars word.toList) = word := h.lower
  rw [same] at phrase
  rw [Keyword.isComplete, h.plain, phrase]
  rfl

theorem isWordText : IsWordText word.toList := isWordText_of_bare h.bare

end IsFreeWord

end SqlQuery
