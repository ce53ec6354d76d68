import SqlQuery.Proofs.Spacing.Literal
import SqlQuery.Proofs.Spacing.Name

/-!
Pieces: what is read at the front of a text is read there, too, when the text goes on after it with
other white space.
-/

namespace SqlQuery

open Text

variable {source more rest rest' : List Char} {c : Char} {kind : Kind} {text : String}

namespace Lexeme

/-- A string with a specifier has a mark in second place, before its quote or as its quote. -/
theorem Literal.second {operand : Bool}
    (h : Literal.read? operand (c :: (more ++ rest)) = some (.ok ⟨kind, text, c :: more, rest⟩))
    (isWord : isWordChar c = true) (digit : c.isDigit = false) :
    ∃ d ds, more = d :: ds ∧ (d = '\x27' ∨ d = '&') := by
  unfold Literal.read? at h
  split at h
  case isTrue quote =>
    obtain rfl : c = '\x27' := by simpa using quote
    cases isWord
  case isFalse =>
    split at h
    case h_1 word found =>
      obtain ⟨piece, read, same⟩ := Except.map_eq_ok.1 (Option.some.inj h)
      have some : more ≠ [] := by
        rintro rfl
        have quoted := (Literal.readString_splits (Literal.specifier?_quote found) read).2
        have front : word ≠ [] := by
          have mem := List.mem_of_find?_eq_some found
          rintro rfl
          revert mem
          decide
        simp only [Piece.mk.injEq] at same
        have length := congrArg List.length same.2.2.1
        have first := List.length_pos_iff.2 front
        have second := List.length_pos_iff.2 quoted
        simp only [List.length_append, List.length_take, List.length_cons, List.length_nil] at length
        omega
      obtain ⟨d, ds, rfl⟩ := List.exists_cons_of_ne_nil some
      have mark : d = '\x27' ∨ d = '&' := by
        by_contra other
        simp only [not_or] at other
        have none : Literal.specifier? (c :: (d :: ds ++ rest)) = .none :=
          specifier?_none (by simpa using other.1) (by simpa using other.2)
        cases none.symm.trans found
      exact ⟨d, ds, rfl, mark⟩
    case h_2 =>
      have number : ¬ Literal.startsNumber (c :: (more ++ rest)) = true := by
        simp only [Literal.startsNumber, digit, Bool.false_or, Bool.and_eq_true, beq_iff_eq, not_and]
        rintro rfl
        cases isWord
      rw [if_neg number] at h
      split at h
      case isFalse => cases h
      case isTrue =>
        obtain ⟨piece, found, _⟩ := Option.map_eq_some_iff.1 h
        obtain ⟨rfl | rfl, _⟩ := Literal.readSigned?_eq_some.1 found <;> cases isWord

namespace Symbol

theorem compounds_plain {operator : List Char} (mem : operator ∈ compounds.map String.toList) :
    operator.any isBlank = false := by
  have table : (compounds.map String.toList).all (fun operator => !operator.any isBlank) = true := by
    decide
  simpa using List.all_eq_true.1 table operator mem

theorem read_loosened (h : read c (more ++ rest) = .ok ⟨kind, text, c :: more, rest⟩)
    (loose : Loosens rest rest') :
    read c (more ++ rest') = .ok ⟨kind, text, c :: more, rest'⟩ := by
  unfold read at h ⊢
  split at h
  case h_1 found =>
    simp only [Piece.verbatim, Except.ok.injEq, Piece.mk.injEq, List.cons.injEq] at h
    obtain ⟨rfl, rfl, ⟨_, rfl⟩, _⟩ := h
    rfl
  case h_2 none =>
    have fewer (operator : List Char) (mem : operator ∈ compounds.map String.toList)
        (starts : operator.isPrefixOf (c :: (more ++ rest')) = true) :
        operator.isPrefixOf (c :: (more ++ rest)) = true := by
      rw [List.isPrefixOf_iff_prefix] at starts ⊢
      exact (loose.append (c :: more)).front (compounds_plain mem) starts
    split at h
    case h_1 operator found =>
      simp only [Piece.verbatim, Except.ok.injEq, Piece.mk.injEq] at h
      obtain ⟨rfl, rfl, rfl, _⟩ := h
      have still : (c :: more).isPrefixOf (c :: (more ++ rest')) = true :=
        List.isPrefixOf_iff_prefix.2 (List.prefix_append (c :: more) rest')
      have found' : compound? (c :: (more ++ rest')) = some (c :: more) :=
        find?_of_fewer found fewer still
      rw [found']
      simp [Piece.verbatim]
    case h_2 none =>
      have none' : compound? (c :: (more ++ rest')) = .none := find?_none_of_fewer none fewer
      rw [none']
      split at h
      case isFalse => cases h
      case isTrue known =>
        simp only [Piece.verbatim, Except.ok.injEq, Piece.mk.injEq, List.cons.injEq] at h
        obtain ⟨rfl, rfl, ⟨_, rfl⟩, _⟩ := h
        rw [if_pos known]
        rfl

theorem read_plain {cs : List Char} {piece : Piece} (h : read c cs = .ok piece)
    (plain : isBlank c = false) : ∀ d ∈ piece.source, isBlank d = false := by
  have single : ∀ d ∈ [c], isBlank d = false := by simp [plain]
  unfold read at h
  split at h
  case h_1 =>
    cases h
    exact single
  case h_2 =>
    split at h
    case h_1 operator found =>
      cases h
      have none := compounds_plain (List.mem_of_find?_eq_some found)
      exact fun d mem => Bool.eq_false_iff.2 (List.any_eq_false.1 none d mem)
    case h_2 =>
      split at h
      case isFalse => cases h
      case isTrue =>
        cases h
        exact single

end Symbol

end Lexeme

open Lexeme

/-- How the text may go on after what was read behind a token, so that it is read alike. -/
structure Follows (previous : Option Token) (source rest rest' : List Char) : Prop where
  loose : Loosens rest rest'
  points : Literal.IsWhole source → Literal.KeepsPoints rest rest'
  words : Name.Continues source rest rest'
  signs : previous.all Token.expectsOperand = true → source = ['+'] ∨ source = ['-'] →
    Literal.startsNumber (rest'.dropWhile isBlank) = true →
      Literal.startsNumber (rest.dropWhile isBlank) = true

namespace Piece

variable {previous : Option Token} {ordinal : Nat}

/-- A sign that is no part of a number is an operator. -/
theorem read_sign {cs : List Char} (sign : c = '+' ∨ c = '-')
    (literal : Literal.read? (previous.all Token.expectsOperand) (c :: cs) = none) :
    Piece.read previous ordinal c cs = Symbol.read c cs := by
  have apart : Name.readParameter? ordinal (c :: cs) = none ∧
      ∀ wildcard bracket, Name.read? wildcard bracket (c :: cs) = none := by
    rcases sign with rfl | rfl
    all_goals exact ⟨rfl, fun _ _ => rfl⟩
  exact read_symbol literal apart.1 (apart.2 _ _)

/-- What was no literal is none yet. -/
theorem literal_none_loosened
    (h : Piece.read previous ordinal c (more ++ rest) = .ok ⟨kind, text, c :: more, rest⟩)
    (literal : Literal.read? (previous.all Token.expectsOperand) (c :: (more ++ rest)) = none)
    (follows : Follows previous (c :: more) rest rest') :
    Literal.read? (previous.all Token.expectsOperand) (c :: (more ++ rest')) = none := by
  refine Literal.read?_none_loosened literal follows.loose (fun sign d mem => ?_) ?_
  -- A sign that is an operator takes no blank with it, so the digits behind it are its own.
  · rw [read_sign sign literal] at h
    have plain : isBlank c = false := by rcases sign with rfl | rfl <;> decide
    exact Symbol.read_plain h plain d (List.mem_cons_of_mem c mem)
  · rintro operand sign rfl
    exact follows.signs operand (by simpa using sign)

/-- A piece is read alike whatever white space comes after it. -/
theorem read_loosened
    (h : Piece.read previous ordinal c (more ++ rest) = .ok ⟨kind, text, c :: more, rest⟩)
    (follows : Follows previous (c :: more) rest rest') :
    Piece.read previous ordinal c (more ++ rest') = .ok ⟨kind, text, c :: more, rest'⟩ := by
  have loose := follows.loose
  rcases read_cases h with literal | ⟨none, later⟩
  · exact read_literal (Literal.read?_loosened literal loose follows.points)
  have literal := literal_none_loosened h none follows
  rcases later with parameter | ⟨none, later⟩
  · rw [← List.cons_append] at parameter
    exact read_named literal (Name.readParameter?_loosened parameter loose)
  have parameter := Name.readParameter?_none_loosened none (loose.append more)
  rcases later with name | ⟨none, symbol⟩
  · exact read_name literal parameter
      (Name.read?_loosened name loose follows.words)
  · rw [read_symbol literal parameter (Name.read?_none none _).1]
    exact Symbol.read_loosened symbol loose

/-- What a phrase meets at the front of a piece: no word, one with a digit in front, words up to the end
of the piece, or a word and then a mark. -/
inductive Front : List Char → List Char → Prop
  | mark {c : Char} {more rest : List Char} (plain : isBlank c = false)
      (mark : isWordChar c = false) : Front (c :: more) rest
  | digit {c : Char} {more rest : List Char} (digit : c.isDigit = true) : Front (c :: more) rest
  | words {source rest : List Char} {ws : List (List Char)} (words : Name.Words source ws)
      (ended : rest.head?.any isWordChar = false) : Front source rest
  | specifier {c d : Char} {more rest : List Char} (word : isWordChar c = true)
      (mark : d = '\x27' ∨ d = '&') : Front (c :: d :: more) rest

theorem Front.ne_nil (h : Front source rest) : source ≠ [] := by
  cases h with
  | mark => exact List.cons_ne_nil _ _
  | digit => exact List.cons_ne_nil _ _
  | words words => exact words.ne_nil
  | specifier => exact List.cons_ne_nil _ _

theorem front
    (h : Piece.read previous ordinal c (more ++ rest) = .ok ⟨kind, text, c :: more, rest⟩)
    (plain : isBlank c = false) : Front (c :: more) rest := by
  cases isWord : isWordChar c with
  | false => exact .mark plain isWord
  | true =>
    cases digit : c.isDigit with
    | true => exact .digit digit
    | false =>
      rcases read_cases h with literal | ⟨_, parameter | ⟨_, name | ⟨none, _⟩⟩⟩
      · obtain ⟨d, ds, rfl, mark⟩ := Literal.second literal isWord digit
        exact .specifier isWord mark
      · obtain ⟨ws, words, last⟩ := Name.words_of_readParameter? parameter isWord
        exact .words words last
      · obtain ⟨ws, words, last⟩ := Name.words_of_read? name isWord
        exact .words words last
      · have mark := (Name.read?_none none []).2
        rw [isWord] at mark
        cases mark

/-- A phrase in front of the piece goes on alike, if it does behind the piece. -/
theorem Front.alike (h : Front source rest) {phrase : String} (loose : Loosens rest rest')
    (unparted : Name.Unparted phrase (source ++ rest) (source ++ rest'))
    (later : ∀ phrase, Name.Unparted phrase rest rest' → Name.Alike phrase rest rest') :
    Name.Alike phrase (source ++ rest) (source ++ rest') := by
  cases h with
  | mark plain mark => exact .mark plain mark phrase _ _
  | digit digit => exact .digit digit phrase _ _
  | words words ended =>
    exact .words words ended (loose.ends isWordChar_plain ended) unparted later
  | @specifier c d more _ word mark =>
    obtain ⟨plain, mark⟩ : isBlank d = false ∧ isWordChar d = false := by
      rcases mark with rfl | rfl <;> decide
    have chars : ∀ e ∈ [c], isWordChar e = true := by simp [word]
    have ended (cs : List Char) : (d :: (more ++ cs)).head?.any isWordChar = false := mark
    have alike := Name.Alike.mark plain mark (Name.longer phrase [c]) (more ++ rest) (more ++ rest')
    exact .word (v := [c]) (List.cons_ne_nil c []) chars (ended rest) (ended rest') alike

end Piece

end SqlQuery
