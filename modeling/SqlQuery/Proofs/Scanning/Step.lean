import SqlQuery.Dialect
import SqlQuery.Proofs.Lexeme.Inversion

/-!
Scanning forward: the tokens that a text is known to be scanned into, one piece at a time.
-/

namespace SqlQuery

/-- The tokens as they are read after so many parameters without names: where the dialect writes no
names, each parameter is named by its number. -/
def Token.numbered (d : Dialect) : Nat → List Token → List Token
  | _, [] => []
  | ordinal, t :: ts =>
    if d.parameterStyle = .anonymous ∧ t.kind = .parameter then
      ⟨.parameter, toString (ordinal + 1)⟩ :: numbered d (ordinal + 1) ts
    else t :: numbered d ordinal ts

/-- Where parameters have names they are read as they are. -/
theorem Token.numbered_named {d : Dialect} (named : d.parameterStyle = .named) (ordinal : Nat)
    (ts : List Token) : numbered d ordinal ts = ts := by
  induction ts with
  | nil => rfl
  | cons t ts ih =>
    rw [numbered, if_neg (by simp [named]), ih]

/-- After this token the text is scanned into these tokens, with the numbers of parameters for names
that the dialect does not write, wherever the text stands. -/
def Scans (d : Dialect) (previous : Option Token) (cs : List Char) (ts : List Token) : Prop :=
  ∀ ordinal position, ∃ ls, (Scan.run previous ordinal position cs).outcome = .ok ls ∧
    Lexeme.tokens ls = Token.numbered d ordinal ts

/-- A comment begins here. -/
def startsComment (cs : List Char) : Bool :=
  Comment.startsBlock cs || ['-', '-'].isPrefixOf cs

theorem read?_of_startsComment {cs : List Char} (h : startsComment cs = false) :
    Comment.startsBlock cs = false ∧ Comment.read? cs = none := by
  simp only [startsComment, Bool.or_eq_false_iff] at h
  refine ⟨h.1, ?_⟩
  unfold Comment.read?
  rw [if_neg (by simp [h.1])]
  split
  · simp [List.isPrefixOf] at h
  · rfl

theorem startsComment_of_ne {c : Char} {cs : List Char} (slash : c ≠ '/') (minus : c ≠ '-') :
    startsComment (c :: cs) = false := by
  have block : Comment.startsBlock (c :: cs) = false := by
    unfold Comment.startsBlock
    split
    · rfl
    · rename_i same
      exact absurd (List.cons.inj same).1 slash
    · rfl
  simp [startsComment, block, List.isPrefixOf, Ne.symm minus]

namespace Gap

variable {position : Nat} {c : Char} {cs : List Char}

/-- Where a gap ends, and the text after it. -/
def ending (gap : Gap) : Nat × List Char := (gap.position, gap.rest)

theorem skip_blank (blank : Text.isBlank c = true) :
    skip position (c :: cs) = skip (position + c.utf8Size) cs := by
  rw [skip, if_pos blank]

theorem skip_unread (visible : Text.isBlank c = false) (unread : Comment.read? (c :: cs) = none) :
    skip position (c :: cs) = ⟨[], position, c :: cs⟩ := by
  rw [skip, if_neg (by simp [visible])]
  split
  case h_1 => rfl
  case h_2 found =>
    rw [unread] at found
    cases found

/-- Where no comment follows, a gap is the blanks. -/
theorem skip_blanks (none : startsComment (cs.dropWhile Text.isBlank) = false) :
    (Gap.skip position cs).rest = cs.dropWhile Text.isBlank := by
  induction cs generalizing position with
  | nil => rw [Gap.skip, List.dropWhile_nil]
  | cons c cs ih =>
    cases blank : Text.isBlank c with
    | true =>
      rw [List.dropWhile_cons_of_pos blank] at none ⊢
      rw [skip_blank blank, ih none]
    | false =>
      rw [List.dropWhile_cons_of_neg (by simp [blank])] at none ⊢
      have unread := (read?_of_startsComment none).2
      exact congrArg Gap.rest (skip_unread blank unread)

end Gap

namespace Scan

variable {previous : Option Token} {ordinal start : Nat} {cs rest : List Char}

theorem run_ended (ended : (Gap.skip start cs).rest = []) :
    (Scan.run previous ordinal start cs).outcome = .ok [] := by
  rw [run_outcome, ended]

theorem run_nil (previous : Option Token) (ordinal position : Nat) :
    Scan.run previous ordinal position [] = ⟨[], .ok []⟩ := by
  rw [Scan.run]
  dsimp only
  split
  · rw [Gap.skip]
    rfl
  case h_2 left =>
    rw [Gap.skip] at left
    cases left

/-- A scan goes on after a piece that it reads behind a gap. -/
theorem run_piece {c : Char} {piece : Piece} {ls : List Lexeme}
    (left : (Gap.skip start cs).rest = c :: rest) (noComment : startsComment (c :: rest) = false)
    (read : Piece.read previous ordinal c rest = .ok piece)
    (ran : (Scan.run (some ⟨piece.kind, piece.text⟩) (ordinalAfter ordinal piece)
      (piece.lexemeAt (Gap.skip start cs).position).stop piece.rest).outcome = .ok ls) :
    (Scan.run previous ordinal start cs).outcome =
      .ok (piece.lexemeAt (Gap.skip start cs).position :: ls) := by
  obtain ⟨block, _⟩ := read?_of_startsComment noComment
  rw [run_outcome, left]
  dsimp only
  rw [if_neg (by simp [block]), read]
  exact congrArg (Except.map _) ran

end Scan

section Readers

variable {previous : Option Token} {ordinal : Nat} {c : Char} {cs : List Char} {piece : Piece}
  {result : Except Fault Piece}

theorem Piece.read_literal
    (literal : Lexeme.Literal.read? (previous.all Token.expectsOperand) (c :: cs) = some result) :
    Piece.read previous ordinal c cs = result := by
  unfold Piece.read
  simp only [literal]

theorem Piece.read_named
    (literal : Lexeme.Literal.read? (previous.all Token.expectsOperand) (c :: cs) = none)
    (parameter : Lexeme.Name.readParameter? ordinal (c :: cs) = some piece) :
    Piece.read previous ordinal c cs = .ok piece := by
  unfold Piece.read
  simp only [literal, parameter]

/-- What is no literal and no parameter is a name, or else a symbol. -/
theorem Piece.read_name
    (literal : Lexeme.Literal.read? (previous.all Token.expectsOperand) (c :: cs) = none)
    (parameter : Lexeme.Name.readParameter? ordinal (c :: cs) = none)
    (name : Lexeme.Name.read? (previous.all Token.precedesWildcard)
      (!previous.any fun l => l.isCommand "array") (c :: cs) = some result) :
    Piece.read previous ordinal c cs = result := by
  unfold Piece.read
  simp only [literal, parameter, name]

theorem Piece.read_symbol
    (literal : Lexeme.Literal.read? (previous.all Token.expectsOperand) (c :: cs) = none)
    (parameter : Lexeme.Name.readParameter? ordinal (c :: cs) = none)
    (name : Lexeme.Name.read? (previous.all Token.precedesWildcard)
      (!previous.any fun l => l.isCommand "array") (c :: cs) = none) :
    Piece.read previous ordinal c cs = Lexeme.Symbol.read c cs := by
  unfold Piece.read
  simp only [literal, parameter, name]

end Readers

/-- At the very front of the text, with no gap before it, this piece is read after the token,
however many parameters there were. -/
inductive Piece.Heads (previous : Option Token) (piece : Piece) : List Char → Prop
  | mk {c : Char} {cs : List Char} (plain : Text.isBlank c = false)
      (noComment : startsComment (c :: cs) = false)
      (read : ∀ ordinal, Piece.read previous ordinal c cs = .ok piece) :
      Heads previous piece (c :: cs)

/-- The piece at the front is the first lexeme of a scan, which goes on with the rest. -/
theorem Scan.run_heads {previous : Option Token} {piece : Piece} {cs : List Char}
    (h : piece.Heads previous cs) (ordinal position : Nat) :
    Scan.run previous ordinal position cs = withLexeme (piece.lexemeAt position)
      (Scan.run (some ⟨piece.kind, piece.text⟩) (ordinalAfter ordinal piece)
        (position + Text.size piece.source) piece.rest) := by
  obtain ⟨plain, noComment, read⟩ := h
  rename_i c rest
  obtain ⟨block, unread⟩ := read?_of_startsComment noComment
  have gap : Gap.skip position (c :: rest) = _ := Gap.skip_unread plain unread
  rw [Scan.run]
  dsimp only [withComments]
  split
  case h_1 ended =>
    rw [gap] at ended
    cases ended
  case h_2 left =>
    rw [gap] at left
    obtain ⟨rfl, rfl⟩ := List.cons.inj left
    rw [if_neg (by simp [block]), gap]
    split
    case h_1 found => cases (read ordinal).symm.trans found
    case h_2 found =>
      obtain rfl := Except.ok.inj ((read ordinal).symm.trans found)
      rfl

/-- The name of a parameter means nothing to what comes after it. -/
theorem Piece.read_after {a b : Token} (first : a.kind = .parameter)
    (second : b.kind = .parameter) : Piece.read (some a) = Piece.read (some b) := by
  have alike (t : Token) (kind : t.kind = .parameter) : t.expectsOperand = false ∧
      t.precedesWildcard = false ∧ t.isCommand "array" = false := by
    simp [Token.expectsOperand, Token.precedesWildcard, Token.isCommand, kind]
  funext ordinal c cs
  simp only [Piece.read, Option.all_some, Option.any_some, alike a first, alike b second]

theorem Scan.run_of_parameter {a b : Token} (first : a.kind = .parameter)
    (second : b.kind = .parameter) : Scan.run (some a) = Scan.run (some b) := by
  funext ordinal position cs
  rw [Scan.run, Scan.run, Piece.read_after first second]

namespace Scans

variable {d : Dialect} {previous : Option Token} {c : Char} {cs rest : List Char} {ts : List Token}

theorem nil : Scans d previous [] [] := by
  intro ordinal position
  exact ⟨[], congrArg Scan.outcome (Scan.run_nil previous ordinal position), rfl⟩

theorem blank (isBlank : Text.isBlank c = true) (h : Scans d previous cs ts) :
    Scans d previous (c :: cs) ts := by
  intro ordinal position
  have same : Scan.run previous ordinal position (c :: cs) =
      Scan.run previous ordinal (position + c.utf8Size) cs := by
    rw [Scan.run, Scan.run, Gap.skip_blank isBlank]
  rw [same]
  exact h ordinal (position + c.utf8Size)

/-- One piece, and what is scanned after it. -/
theorem step {piece : Piece} {t : Token} (ordinal position : Nat) (plain : Text.isBlank c = false)
    (noComment : startsComment (c :: cs) = false)
    (read : Piece.read previous ordinal c cs = .ok piece)
    (same : Scan.run (some ⟨piece.kind, piece.text⟩) = Scan.run (some t))
    (h : Scans d (some t) piece.rest ts) :
    ∃ ls, (Scan.run previous ordinal position (c :: cs)).outcome = .ok ls ∧
      Lexeme.tokens ls =
        ⟨piece.kind, piece.text⟩ :: Token.numbered d (Scan.ordinalAfter ordinal piece) ts := by
  have here : (c :: cs).dropWhile Text.isBlank = c :: cs :=
    List.dropWhile_cons_of_neg (by simp [plain])
  have left : (Gap.skip position (c :: cs)).rest = c :: cs := by
    rw [Gap.skip_blanks (by rwa [here]), here]
  let lexeme := piece.lexemeAt (Gap.skip position (c :: cs)).position
  obtain ⟨ls, ran, tokens⟩ := h (Scan.ordinalAfter ordinal piece) lexeme.stop
  rw [← same] at ran
  refine ⟨lexeme :: ls, Scan.run_piece left noComment read ran, ?_⟩
  rw [← tokens]
  rfl

/-- A piece that is the token itself, and no parameter without a name. -/
theorem piece {t : Token} (source : List Char) (plain : Text.isBlank c = false)
    (noComment : startsComment (c :: cs) = false)
    (read : ∀ ordinal, Piece.read previous ordinal c cs = .ok ⟨t.kind, t.text, source, rest⟩)
    (named : t.kind = .parameter → d.parameterStyle = .named)
    (h : Scans d (some t) rest ts) : Scans d previous (c :: cs) (t :: ts) := by
  intro ordinal position
  obtain ⟨ls, ran, tokens⟩ := step ordinal position plain noComment (read ordinal) rfl h
  refine ⟨ls, ran, tokens.trans ?_⟩
  cases style : d.parameterStyle with
  | named => rw [Token.numbered_named style, Token.numbered_named style]
  | anonymous =>
    have other : t.kind ≠ .parameter := fun same => nomatch style.symm.trans (named same)
    have unmarked : source ≠ ['?'] := fun mark => other (Piece.read_source_mark (read ordinal) mark)
    rw [Token.numbered, if_neg (fun both => other both.2), Scan.ordinalAfter, if_neg (by simpa using unmarked)]

/-- A mark that stands for a parameter where the dialect writes no names. -/
theorem mark {t : Token} (style : d.parameterStyle = .anonymous) (kind : t.kind = .parameter)
    (plain : Text.isBlank c = false) (noComment : startsComment (c :: cs) = false)
    (read : ∀ ordinal, Piece.read previous ordinal c cs =
      .ok ⟨.parameter, toString (ordinal + 1), ['?'], rest⟩)
    (h : Scans d (some t) rest ts) : Scans d previous (c :: cs) (t :: ts) := by
  intro ordinal position
  obtain ⟨ls, ran, tokens⟩ := step ordinal position plain noComment (read ordinal)
    (Scan.run_of_parameter rfl kind) h
  refine ⟨ls, ran, tokens.trans ?_⟩
  rw [Token.numbered, if_pos ⟨style, kind⟩]
  rfl

/-- The piece at the front, and what is scanned after it. -/
theorem next {t : Token} {source : List Char}
    (front : Piece.Heads previous ⟨t.kind, t.text, source, rest⟩ cs)
    (named : t.kind = .parameter → d.parameterStyle = .named) (h : Scans d (some t) rest ts) :
    Scans d previous cs (t :: ts) := by
  obtain ⟨plain, noComment, read⟩ := front
  exact piece source plain noComment read named h

end Scans

end SqlQuery
