import SqlQuery.Proofs.Casing.Name
import SqlQuery.Proofs.Spacing.Scan

/-!
The scan of a text in lowercase. It passes over the same gaps, reads the same pieces and meets the
same fault in the same place.
-/

namespace SqlQuery

open Text

namespace Comment

theorem startsBlock_lower (cs : List Char) : startsBlock (lowerChars cs) = startsBlock cs := by
  rw [Bool.eq_iff_iff, startsBlock_iff, startsBlock_iff, prefix_lowerChars (by decide),
    take_lowerChars, Ne, lowerChars_eq_iff (by decide)]

theorem untilEnd?_lower (cs : List Char) :
    untilEnd? (lowerChars cs) = (untilEnd? cs).map lowerSplit := by
  induction cs using untilEnd?.induct with
  | case1 => rfl
  | case2 rest => rfl
  | case3 c cs not_end ih =>
    have not_end' (rest : List Char) (star : c.toLower = '*')
        (slash : lowerChars cs = '/' :: rest) : False := by
      obtain ⟨rest, rfl⟩ := exists_of_lowerChars_eq_cons rfl slash
      exact not_end rest ((toLower_eq_iff rfl).1 star) rfl
    rw [lowerChars_cons, untilEnd?, ih, untilEnd?]
    · cases untilEnd? cs <;> rfl
    · exact not_end
    · exact not_end'

theorem startsComment_lower (cs : List Char) :
    startsComment (lowerChars cs) = startsComment cs := by
  rw [startsComment, startsBlock_lower, isPrefixOf_lowerChars (by decide), startsComment]

/-- What a comment takes of the text and what it leaves. -/
def split (c : Comment) : List Char × List Char := (c.source, c.rest)

theorem ofLine_lower (cs : List Char) :
    (ofLine (lowerChars cs)).split = lowerSplit (ofLine cs).split := by
  have caseless : Caseless (· != '\n') := (Caseless.beq rfl).not
  simp only [split, ofLine, lowerSplit, caseless.takeWhile, caseless.dropWhile, lowerChars_cons]
  rfl

/-- A comment in lowercase takes and leaves as much of the text. -/
theorem read?_lower (cs : List Char) :
    (read? (lowerChars cs)).map split = (read? cs).map (lowerSplit ∘ split) := by
  cases starts : startsComment cs with
  | false =>
    have starts' : startsComment (lowerChars cs) = false := by rwa [startsComment_lower]
    rw [(read?_of_startsComment starts).2, (read?_of_startsComment starts').2]
    rfl
  | true =>
    cases block : startsBlock cs with
    | true =>
      have block' : startsBlock (lowerChars cs) = true := by rwa [startsBlock_lower]
      unfold read?
      rw [if_pos block, if_pos block', ofBlock?, drop_lowerChars, untilEnd?_lower, ofBlock?]
      cases untilEnd? (cs.drop 2) with
      | none => rfl
      | some found => simp [Comment.split, lowerSplit]
    | false =>
      rw [startsComment, block, Bool.false_or, List.isPrefixOf_iff_prefix] at starts
      obtain ⟨rest, rfl⟩ := starts
      exact congrArg some (ofLine_lower rest)

end Comment

namespace Gap

variable {position : Nat} {c : Char} {cs : List Char}

theorem skip_comment {comment : Comment} (visible : isBlank c = false)
    (read : Comment.read? (c :: cs) = some comment) :
    (skip position (c :: cs)).ending =
      (skip (position + size comment.source) comment.rest).ending := by
  rw [skip, if_neg (by simp [visible])]
  split
  case h_1 unread =>
    rw [read] at unread
    cases unread
  case h_2 found =>
    obtain rfl := Option.some.inj (read.symm.trans found)
    rfl

/-- A gap in lowercase ends in the same place. -/
theorem skip_lower (position : Nat) (cs : List Char) :
    (skip position (lowerChars cs)).ending =
      ((skip position cs).position, lowerChars (skip position cs).rest) := by
  fun_induction skip position cs with
  | case1 position =>
    rw [lowerChars_nil, skip]
    rfl
  | case2 position c rest blank ih =>
    have blank' : isBlank c.toLower = true := by rwa [isBlank_caseless]
    rw [lowerChars_cons, skip_blank blank', utf8Size_toLower]
    exact ih
  | case3 position c rest visible unread =>
    have visible' : isBlank c.toLower = false := by
      rw [isBlank_caseless]
      simpa using visible
    have unread' := Comment.read?_lower (c :: rest)
    rw [unread, lowerChars_cons] at unread'
    rw [lowerChars_cons, skip_unread visible' (Option.map_eq_none_iff.1 unread')]
    rfl
  | case4 position c rest visible comment read stop gap lines ih =>
    have visible' : isBlank c.toLower = false := by
      rw [isBlank_caseless]
      simpa using visible
    have read' := Comment.read?_lower (c :: rest)
    rw [read, lowerChars_cons] at read'
    obtain ⟨comment', read', same⟩ := Option.map_eq_some_iff.1 read'
    obtain ⟨source, left⟩ := Prod.mk.inj same
    rw [lowerChars_cons, skip_comment visible' read', source, left, size_lowerChars]
    exact ih

end Gap

namespace Lexeme.Symbol

theorem compounds_noLetter : ∀ operator ∈ compounds.map String.toList, noLetter operator = true := by
  decide

theorem compound?_lower (cs : List Char) : compound? (lowerChars cs) = compound? cs := by
  rw [compound?, ← List.head?_filter, compound?, ← List.head?_filter]
  refine congrArg List.head? (List.filter_congr fun operator listed => ?_)
  exact isPrefixOf_lowerChars (compounds_noLetter operator listed)

theorem compound?_noLetter {cs operator : List Char} (h : compound? cs = some operator) :
    noLetter operator = true :=
  compounds_noLetter operator (List.mem_of_find?_eq_some h)

/-- What is read at a character that is no letter. -/
theorem read_lower {c : Char} (other : c.isAlpha = false) (cs : List Char) :
    read c (lowerChars cs) = (read c cs).map Piece.lower := by
  have same : c.toLower = c := toLower_of_other other
  have whole : c :: lowerChars cs = lowerChars (c :: cs) := by rw [lowerChars_cons, same]
  have single : [c].all (fun c => !c.isAlpha) = true := by simp [other]
  unfold read
  split
  · exact congrArg Except.ok (Piece.lower_symbol single _ cs).symm
  · simp only [whole, compound?_lower, drop_lowerChars]
    split
    case h_1 operator found =>
      exact congrArg Except.ok (Piece.lower_symbol (compound?_noLetter found) _ _).symm
    case h_2 =>
      split
      · exact congrArg Except.ok (Piece.lower_symbol single _ cs).symm
      · rfl

end Lexeme.Symbol

/-- The same piece is read in lowercase, or the same fault met. -/
theorem Piece.read_lower (previous : Option Token) (ordinal : Nat) (c : Char) (cs : List Char) :
    Piece.read (previous.map Token.lower) ordinal c.toLower (lowerChars cs) =
      (Piece.read previous ordinal c cs).map Piece.lower := by
  have operand : (previous.map Token.lower).all Token.expectsOperand =
      previous.all Token.expectsOperand := by
    cases previous <;> simp
  have wildcard : (previous.map Token.lower).all Token.precedesWildcard =
      previous.all Token.precedesWildcard := by
    cases previous <;> simp
  have bracket : (previous.map Token.lower).any (fun t => t.isCommand "array") =
      previous.any fun t => t.isCommand "array" := by
    cases previous <;> simp
  unfold Piece.read
  dsimp only
  rw [operand, wildcard, bracket, ← lowerChars_cons, Lexeme.Literal.read?_lower,
    Lexeme.Name.readParameter?_lower, Lexeme.Name.read?_lower]
  cases Lexeme.Literal.read? (previous.all Token.expectsOperand) (c :: cs) with
  | some result => rfl
  | none => 
    cases Lexeme.Name.readParameter? ordinal (c :: cs) with
    | some piece => rfl
    | none =>
      cases unread : Lexeme.Name.read? (previous.all Token.precedesWildcard)
          (!previous.any fun t => t.isCommand "array") (c :: cs) with
      | some result => rfl
      | none =>
        have other := Lexeme.Name.not_alpha_of_unread unread
        rw [toLower_of_other other]
        exact Lexeme.Symbol.read_lower other cs

namespace Scan

theorem ordinalAfter_lower (ordinal : Nat) (piece : Piece) :
    ordinalAfter ordinal piece.lower = ordinalAfter ordinal piece := by
  simp only [ordinalAfter, Piece.lower, lowerChars_eq_iff (show ['?'].all _ = true by decide)]

/-- The same lexemes stand in the same places, or the same fault. -/
theorem run_lower (previous : Option Token) (ordinal position : Nat) (cs : List Char) :
    (run (previous.map Token.lower) ordinal position (lowerChars cs)).outcome =
      (run previous ordinal position cs).outcome.map (List.map Lexeme.lower) := by
  induction measured : cs.length using Nat.strongRecOn
    generalizing cs previous ordinal position with
  | ind n ih =>
    obtain ⟨place, left⟩ := Prod.mk.inj (Gap.skip_lower position cs)
    rw [run_outcome, run_outcome previous, place, left]
    cases after : (Gap.skip position cs).rest with
    | nil => rfl
    | cons c rest =>
      rw [lowerChars_cons]
      dsimp only
      rw [← lowerChars_cons, Comment.startsBlock_lower]
      split
      · rfl
      rw [Piece.read_lower]
      cases read : Piece.read previous ordinal c rest with
      | error fault => rfl
      | ok piece =>
        have shorter : piece.rest.length < n := by
          have taken := (Piece.read_splits read).rest_lt
          have skipped := Gap.rest_le position cs
          rw [after] at skipped
          omega
        have token : Token.mk piece.kind piece.lower.text = Token.lower ⟨piece.kind, piece.text⟩ :=
          (Token.lower_eq ⟨piece.kind, piece.text⟩).symm
        have later := ih _ shorter (some ⟨piece.kind, piece.text⟩) (ordinalAfter ordinal piece)
          (piece.lexemeAt (Gap.skip position cs).position).stop piece.rest rfl
        show Except.map _ (run (some ⟨piece.kind, piece.lower.text⟩)
          (ordinalAfter ordinal piece.lower) (piece.lower.lexemeAt _).stop
          (lowerChars piece.rest)).outcome = _
        rw [token, ordinalAfter_lower, Piece.lexemeAt_lower]
        refine (congrArg (Except.map _) later).trans ?_
        dsimp only
        cases (run (some ⟨piece.kind, piece.text⟩) (ordinalAfter ordinal piece)
          (piece.lexemeAt (Gap.skip position cs).position).stop piece.rest).outcome <;> rfl

end Scan

end SqlQuery
