import SqlQuery.Proofs.Keyword.Letters
import SqlQuery.Proofs.Written.Shape

/-!
Keywords, the operators among them and the symbols are written as they are, and as one token each.
-/

namespace SqlQuery

open Mark

namespace Keyword

variable {text : String}

theorem trim_of_complete (h : isComplete text = true) : Text.trim text = text := by
  have trimmed : ∀ letters ∈ reservedLetters ++ phraseLetters, Text.trimChars letters = letters := by
    decide +kernel
  obtain ⟨letters, mem, rfl⟩ := isComplete_letters h
  rw [Text.trim, String.toList_ofList, trimmed letters mem]

theorem tokens_rawMark (h : isComplete text = true) : (rawMark text).tokens = [keywordToken text] := by
  rw [rawMark, trim_of_complete h]
  exact tokens_keyword h

end Keyword

theorem joinKinds_complete : ∀ kind ∈ joinKinds, Keyword.isComplete kind = true := by
  decide +kernel

theorem setOperators_complete : ∀ operator ∈ Grammar.setOperators,
    Keyword.isComplete operator = true := by
  decide +kernel

namespace Power

theorem keywords_complete : ∀ entry ∈ keywords, Keyword.isComplete entry.1 = true := by
  decide +kernel

theorem symbols_incomplete : ∀ entry ∈ symbols, Keyword.isComplete entry.1 = false := by
  have words : ∀ letters ∈ Keyword.reservedLetters ++ Keyword.phraseLetters,
      letters.head?.any Text.isWordChar = true := by
    decide +kernel
  have marks : ∀ entry ∈ symbols, entry.1.toList.head?.any Text.isWordChar = false := by
    decide +kernel
  refine fun entry mem => Bool.eq_false_iff.2 fun complete => ?_
  obtain ⟨letters, known, same⟩ := Keyword.isComplete_letters complete
  have mark := marks entry mem
  rw [same, String.toList_ofList, words letters known] at mark
  cases mark

theorem symbols_plain : ∀ entry ∈ symbols, Text.trim entry.1 = entry.1 ∧
    plainTokens entry.1 = [⟨.operator, entry.1⟩] := by
  have single : ∀ entry ∈ symbols, Text.trim entry.1 = entry.1 ∧ punctuationKind? entry.1 = none ∧
      isSymbol entry.1 = true := by
    decide +kernel
  intro entry mem
  obtain ⟨trim, other, symbol⟩ := single entry mem
  refine ⟨trim, ?_⟩
  simp only [plainTokens, symbols_incomplete entry mem, other, symbol, Bool.false_eq_true, if_false,
    if_true]

end Power

end SqlQuery
