import SqlQuery.Proofs.Ending.Rule
import SqlQuery.Proofs.Parsed.Query
import SqlQuery.Proofs.Scanning.Word

/-!
Every expression ends with a token that closes an operand, whatever it is: a literal, a parameter, a
name, the last word of a type, a closing bracket, or one of the keywords that end an operand.
-/

namespace SqlQuery

/-- What is read as a keyword is one. -/
def Token.KnownCommand (t : Token) : Prop := t.kind = .command → Keyword.isComplete t.text = true

/-- The kinds of token that close an operand whatever their text is. -/
def closingKinds : List Kind :=
  [.literal, .escapedString, .parameter, .identifier, .closeParen, .closeBracket]

/-- The words that end the name of a type. None of them is a keyword. -/
def typeEnds : List String := ["precision", "varying", "zone"]

namespace Token

variable {t : Token} {word : String}

theorem closes_of_kind (h : t.kind ∈ closingKinds) : t.closes = true := by
  simp only [closingKinds, List.mem_cons, List.not_mem_nil, or_false] at h
  rcases h with h | h | h | h | h | h <;> simp [closes, expectsOperand, precedesWildcard, h]

theorem closes_of_isKind {kind : Kind} (mem : kind ∈ closingKinds) (h : isKind kind t = true) :
    t.closes = true :=
  closes_of_kind (beq_iff_eq.1 h ▸ mem)

theorem closes_of_isName (h : isName t = true) : t.closes = true := by
  simp only [isName, Bool.and_eq_true, beq_iff_eq] at h
  exact closes_of_kind (h.1 ▸ by decide)

theorem closes_of_isCommand (mem : word ∈ operandEnds) (h : t.isCommand word = true) :
    t.closes = true := by
  simp only [isCommand, Bool.and_eq_true, beq_iff_eq] at h
  simp [closes, precedesWildcard, expectsOperand, h, mem]

theorem closes_of_isWord (mem : word ∈ typeEnds) (known : t.KnownCommand) (h : t.isWord word = true) :
    t.closes = true := by
  have apart : ∀ letters ∈ Keyword.reservedLetters ++ Keyword.phraseLetters, ∀ word ∈ typeEnds,
      (Text.lowerChars letters == Text.lowerChars word.toList) = false := by decide +kernel
  simp only [isWord, Bool.and_eq_true, Bool.or_eq_true, beq_iff_eq] at h
  obtain ⟨name | command, same⟩ := h
  · exact closes_of_kind (name ▸ by decide)
  · obtain ⟨letters, complete, spelled⟩ := Keyword.isComplete_letters (known command)
    have other := apart letters complete word mem
    rw [Text.sameIgnoringCase, beq_iff_eq, Text.lower, Text.lower, spelled, String.toList_ofList] at same
    rw [String.ofList_inj.1 same, beq_self_eq_true] at other
    cases other

end Token

/-- The expressions of the level end with tokens that close an operand. -/
structure Level.Ends (level : Level) : Prop extends level.Sound Token.KnownCommand where
  finishes : ∀ floor, Rule.Finishes Token.KnownCommand (level.expr floor)

structure Scope.Ends (scope : Scope) : Prop where
  here : scope.here.Ends
  inside : ∀ level, scope.inside = some level → level.Ends

theorem Scope.Ends.sound {scope : Scope} (h : scope.Ends) : scope.Sound Token.KnownCommand :=
  ⟨h.here.toSound, fun level inside => (h.inside level inside).toSound⟩

namespace Grammar

open Rule
open Token (KnownCommand)

variable {level : Level} {scope : Scope}

theorem closeParen_finishes : Finishes KnownCommand closeParen :=
  .require fun _ _ => Token.closes_of_isKind (by decide)

theorem closeBracket_finishes : Finishes KnownCommand closeBracket :=
  .require fun _ _ => Token.closes_of_isKind (by decide)

theorem name_finishes : Finishes KnownCommand name :=
  .expect fun _ _ _ found => Token.closes_of_isName (Option.ite_none_right_eq_some.1 found).1

section Nested

/-- What is read before a closing parenthesis. -/
theorem inParens_finishes {α β : Type} {r : Rule α} {Q : α → Prop} (inner : Makes KnownCommand r Q)
    (g : α → β) : Finishes KnownCommand (do
      let a ← r
      closeParen
      return g a) :=
  .last inner fun _ => closeParen_finishes.bind fun _ => .ret

theorem nestedQuery_finishes (h : level.Ends) : Finishes KnownCommand (nestedQuery level) :=
  inParens_finishes h.query id

theorem parenthesizedQuery_finishes (h : scope.Ends) :
    Finishes KnownCommand (parenthesizedQuery scope) :=
  .last (Makes.require _ _) fun _ =>
    .map (.enter fun level inside => nestedQuery_finishes (h.inside level inside))

theorem parenthesized_finishes (h : scope.Ends) : Finishes KnownCommand (parenthesized scope) := by
  refine .choose (Makes.look _ _) (parenthesizedQuery_finishes h) (.last Makes.skip fun _ => ?_)
  refine .bind (.enter fun level inside => ?_) fun values => ?_
  · exact inParens_finishes (values_sound (h.inside level inside).toSound) id
  · split <;> exact .ret

theorem membership_finishes (h : scope.Ends) (power : Nat) :
    Finishes KnownCommand (membership scope power) := by
  refine .last (Makes.look _ _) fun _ => .last (Makes.look _ _) fun _ => ?_
  refine .ite (fun _ => h.here.finishes power) fun _ => .last Makes.skip fun _ => .map ?_
  exact .enter fun level inside =>
    inParens_finishes (valuesBefore_sound (h.inside level inside).toSound _) id

end Nested

section Types

/-- Two words are passed over unseen, and the second of them was looked at before. -/
theorem timeZone_mayFinish : MayFinish KnownCommand timeZone := by
  intro ts suffix rest all run
  obtain ⟨time, _, looked, run⟩ := bind_eq_ok.1 run
  cases looked
  obtain ⟨zone, _, looked, run⟩ := bind_eq_ok.1 run
  cases looked
  split at run
  case isFalse => exact .inl (pure_eq_ok.1 run).2
  case isTrue words =>
    rw [Bool.and_eq_true] at words
    obtain ⟨a, b, c, left, rfl, zone⟩ : ∃ a b c left,
        ts = a :: b :: c :: left ∧ c.isWord "zone" = true := by
      match ts, words.2 with
      | a :: b :: c :: left, zone => exact ⟨a, b, c, left, rfl, zone⟩
    have closes : c.closes = true := Token.closes_of_isWord (by decide) (all c (by simp)) zone
    have taken : TakesClosed (a :: b :: c :: left) left := ⟨[a, b], c, rfl, closes⟩
    obtain ⟨isWith, mid, ate, run⟩ := bind_eq_ok.1 run
    rcases eat_eq_ok ate with ⟨rfl, rfl⟩ | ⟨rfl, t, same, _⟩
    · obtain ⟨isWithout, mid, ate, next⟩ := bind_eq_ok.1 run
      rcases eat_eq_ok ate with ⟨rfl, rfl⟩ | ⟨rfl, t, same, _⟩
      · exact .inl (pure_eq_ok.1 next).2
      · cases same
        cases next
        exact .inr taken
    · cases same
      cases run
      exact .inr taken

theorem typeSuffix_mayFinish (name : String) : MayFinish KnownCommand (typeSuffix name) := by
  have one {word : String} (mem : word ∈ typeEnds) (suffix : String) :
      MayFinish KnownCommand (do
        if ← eatWord word then return suffix else return "" : Rule String) :=
    (MayFinish.eat fun t => Token.closes_of_isWord mem).bind fun _ => .ite .ret .ret
  exact .ite (one (by decide) _) (.ite (one (by decide) _) (.ite timeZone_mayFinish .ret))

theorem typeRef_finishes (h : level.Ends) : Finishes KnownCommand (typeRef level) := by
  refine .bind (.expect fun t _ _ found => ?_) fun name => (typeSuffix_mayFinish name).bind fun _ => ?_
  · exact Token.closes_of_isName (Option.ite_none_right_eq_some.1 found).1
  · exact (MayFinish.after (inParens_finishes (values_sound h.toSound) _)).bind fun _ => .ret

end Types

section Operators

theorem operatorSuffix_finishes (h : scope.Ends) (operator : String) (power : Nat) :
    Finishes KnownCommand (operatorSuffix scope operator power) := by
  refine .ite (fun _ => (typeRef_finishes h.here).map) fun _ => .ite (fun _ => ?_) fun _ => ?_
  · refine .last (h.here.value power) fun _ => .last (Makes.require _ _) fun _ => ?_
    exact (h.here.finishes power).bind fun _ => .ret
  · exact .ite (fun _ => (membership_finishes h power).map) fun _ => (h.here.finishes power).map

theorem suffix_mayFinish (h : scope.Ends) (floor : Nat) :
    MayFinish KnownCommand (suffix scope floor) := by
  intro ts o rest all run
  obtain ⟨found, mid, ran, next⟩ := bind_eq_ok.1 run
  cases found with
  | none => exact .inl ((pure_eq_ok.1 next).2.trans (accept_eq_none ran))
  | some found =>
    obtain ⟨t, rfl, _⟩ := accept_eq_some ran
    have left : mid <:+ t :: mid := List.suffix_cons t mid
    have taken := (operatorSuffix_finishes h found.1 found.2).map mid o rest (all_suffix all left) next
    exact .inr (taken.of_suffix left)

end Operators

section Operands

theorem windowRef_finishes (h : scope.Ends) : Finishes KnownCommand (windowRef scope) := by
  refine .choose (Makes.look _ _) name_finishes.map (.last (Makes.require _ _) fun _ => .map ?_)
  exact .enter fun level inside =>
    inParens_finishes (windowSpec_sound (h.inside level inside).toSound) id

theorem functionCall_finishes (h : scope.Ends) (namespaces : List String) (name : String) :
    Finishes KnownCommand (functionCall scope namespaces name) := by
  refine .last (Makes.require _ _) fun _ => .bind (.enter fun level inside => ?_) fun argument => ?_
  · exact inParens_finishes (argument_sound (h.inside level inside).toSound name) id
  · exact (MayFinish.after (windowRef_finishes h)).bind fun _ => .ret

theorem path_finishes : Finishes KnownCommand path := by
  have general (bound : List Token) : Finishes KnownCommand (pathUpTo bound) := by
    induction bound with
    | nil => exact .fail
    | cons t bound ih =>
      refine .bind (.expect fun t _ _ found => ?_) fun name => ?_
      · have identifier := (Option.ite_none_right_eq_some.1 found).1
        exact Token.closes_of_isKind (by decide) identifier
      · exact .ite .ret (.behind (ih.bind fun _ => .ret) .ret)
  exact fun ts => general ts ts

theorem typedString_mayFinish (allowed : Bool) : MayFinish KnownCommand (typedString allowed) := by
  refine .ite (.accept fun t _ _ found => ?_) .ret
  have quoted := (Option.ite_none_right_eq_some.1 found).1
  rw [Bool.and_eq_true] at quoted
  exact Token.closes_of_isKind (by decide) quoted.1

theorem named_finishes (h : scope.Ends) : Finishes KnownCommand (named scope) := by
  refine path_finishes.bind fun names => (MayFinish.look _ _).bind fun isCall => ?_
  refine .ite (functionCall_finishes h _ _).map.mayFinish ?_
  refine (typedString_mayFinish _).bind fun o => ?_
  split <;> exact .ret

theorem caseExpr_finishes (h : scope.Ends) : Finishes KnownCommand (caseExpr scope) := by
  refine .last Makes.skip fun _ => .enter fun level inside => ?_
  have sound := (h.inside level inside).toSound
  refine .last (caseSubject_sound sound) fun _ => .last (branches_sound sound) fun _ => ?_
  refine .last (Makes.after (Makes.eat _) (sound.value 0)) fun _ => ?_
  exact .bind (.require fun _ _ => Token.closes_of_isCommand (by decide)) fun _ => .ret

theorem castExpr_finishes (h : scope.Ends) : Finishes KnownCommand (castExpr scope) := by
  refine .last Makes.skip fun _ => .last (Makes.require _ _) fun _ => .enter fun level inside => ?_
  have sound := (h.inside level inside).toSound
  refine .last (sound.value 0) fun _ => .last (Makes.require _ _) fun _ => ?_
  exact inParens_finishes (typeRef_sound sound) _

theorem arrayExpr_finishes (h : scope.Ends) : Finishes KnownCommand (arrayExpr scope) := by
  refine .last Makes.skip fun _ => .choose (Makes.eat _) (.enter fun level inside => ?_) ?_
  · refine .last (valuesBefore_sound (h.inside level inside).toSound _) fun _ => ?_
    exact closeBracket_finishes.bind fun _ => .ret
  · refine .last (Makes.look _ _) fun _ => .last (Makes.look _ _) fun _ => ?_
    exact .ite (fun _ => (parenthesizedQuery_finishes h).map) fun _ => .fail

end Operands

variable {t : Token} {ts rest : List Token} {e : Expr}

/-- The keywords that are operands end them, and the others start operands that end in another way. -/
theorem keywordOperand_finishes (h : scope.Ends) (kind : t.kind = .command)
    (all : ∀ u ∈ t :: ts, u.KnownCommand)
    (run : keywordOperand scope t.text (t :: ts) = .ok (e, rest)) : TakesClosed (t :: ts) rest := by
  have ends_of {word : String} (mem : word ∈ Token.operandEnds) (same : (t.text == word) = true) :
      t.closes = true :=
    Token.closes_of_isCommand mem (by simp [Token.isCommand, kind, same])
  unfold keywordOperand at run
  split at run
  · cases run
    exact .head (ends_of (show "null" ∈ Token.operandEnds by decide) ‹_›)
  split at run
  case isTrue same =>
    cases run
    rw [Bool.or_eq_true] at same
    exact .head (same.elim (ends_of (by decide)) (ends_of (by decide)))
  split at run
  · exact caseExpr_finishes h _ _ _ all run
  split at run
  · exact castExpr_finishes h _ _ _ all run
  split at run
  · exact arrayExpr_finishes h _ _ _ all run
  split at run
  · exact Finishes.last Makes.skip (fun _ => (parenthesizedQuery_finishes h).map) _ _ _ all run
  · exact absurd run fail_ne_ok

theorem primary_finishes (h : scope.Ends) (all : ∀ u ∈ t :: ts, u.KnownCommand)
    (run : primary scope t (t :: ts) = .ok (e, rest)) : TakesClosed (t :: ts) rest := by
  unfold primary at run
  cases kind : t.kind <;> simp only [kind] at run
  case openParen => exact parenthesized_finishes h _ _ _ all run
  case identifier => exact named_finishes h _ _ _ all run
  case command => exact keywordOperand_finishes h kind all run
  case literal | escapedString | parameter =>
    cases run
    exact .head (Token.closes_of_kind (kind ▸ by decide))
  all_goals exact absurd run fail_ne_ok

theorem operand_finishes (h : scope.Ends) : Finishes KnownCommand (operand scope) := by
  intro ts e rest all run
  obtain ⟨o, mid, peeked, run⟩ := bind_eq_ok.1 run
  cases peeked
  cases ts with
  | nil => cases run
  | cons t ts =>
    dsimp only [List.head?_cons] at run
    cases unary : Power.unary? t <;> simp only [unary] at run
    · exact primary_finishes h all run
    · exact Finishes.last Makes.skip (fun _ => (h.here.finishes _).map) _ _ _ all run

theorem expression_finishes (h : scope.Ends) (floor : Nat) :
    Finishes KnownCommand (expression scope floor) :=
  (operand_finishes h).bind fun _ => (suffix_mayFinish h floor).many.bind fun _ => .ret

theorem levelAt_ends (n : Nat) : (levelAt n).Ends ∧ (scopeAt n).Ends := by
  refine levelAt_invariant (fun _ => Scope.Ends.mk) ⟨⟨?_, ?_⟩, ?_⟩ (fun s scope => ?_) n
  · exact fun _ _ _ _ _ _ run => by cases run
  · exact fun _ _ _ _ _ run => by cases run
  · exact fun _ _ _ _ _ run => by cases run
  · exact ⟨⟨expression_sound scope.sound, query_sound scope.sound⟩, expression_finishes scope⟩

end Grammar

end SqlQuery
