import SqlQuery.Proofs.Layout.Text
import SqlQuery.Proofs.Spacing.Piece

/-!
The scan of a text with other white space between its lexemes. It reads the same lexemes, but for the
places where a gap means more than that two lexemes are apart: after a number in front of two points,
inside the opening of a hint, and where a comment stands between words of a phrase or between a sign
and a number.
-/

namespace SqlQuery

open Text Lexeme

/-- White space in the place of a gap: some where there was anything. -/
structure Blanked (gap gap' : List Char) : Prop where
  blank : ∀ c ∈ gap', isBlank c = true
  some : gap ≠ [] → gap' ≠ []

instance (gap gap' : List Char) : Decidable (Blanked gap gap') :=
  decidable_of_iff (gap'.all isBlank = true ∧ (gap ≠ [] → gap' ≠ []))
    ⟨fun h => ⟨List.all_eq_true.1 h.1, h.2⟩, fun h => ⟨List.all_eq_true.2 h.blank, h.some⟩⟩

/-- The second text has the lexemes of the first one, which are given with their places, after a token
and from a position on. `gaps` relates what stands between them, and `keeps` what comes after each of
them. -/
inductive Respaced (gaps : List Char → List Char → Prop)
    (keeps : Option Token → List Char → List Char → List Char → Prop) :
    Option Token → Nat → List Lexeme → List Char → List Char → Prop
  | last {previous : Option Token} {start : Nat} {gap gap' : List Char} (between : gaps gap gap') :
      Respaced gaps keeps previous start [] gap gap'
  | next {previous : Option Token} {start : Nat} {l : Lexeme} {ls : List Lexeme}
      {gap gap' source rest rest' : List Char} (between : gaps gap gap')
      (starts : l.position = start + size gap) (stops : l.stop = l.position + size source)
      (after : keeps previous source rest rest')
      (later : Respaced gaps keeps (some l.toToken) l.stop ls rest rest') :
      Respaced gaps keeps previous start (l :: ls) (gap ++ (source ++ rest))
        (gap' ++ (source ++ rest'))

theorem append_inj_of_size {as bs cs ds : List Char} (same : as ++ bs = cs ++ ds)
    (sizes : size as = size cs) : as = cs ∧ bs = ds := by
  induction as generalizing cs with
  | nil =>
    cases cs with
    | nil => exact ⟨rfl, same⟩
    | cons c cs =>
      have := c.utf8Size_pos
      simp only [size_nil, size_cons] at sizes
      omega
  | cons a as ih =>
    cases cs with
    | nil =>
      have := a.utf8Size_pos
      simp only [size_nil, size_cons] at sizes
      omega
    | cons c cs =>
      obtain ⟨rfl, tails⟩ := List.cons.inj same
      obtain ⟨rfl, rfl⟩ := ih tails (by simpa using sizes)
      exact ⟨rfl, rfl⟩

theorem Comment.head_of_read? {cs : List Char} {comment : Comment} (h : read? cs = some comment) :
    ∀ c ∈ comment.source.head?, c = '-' ∨ c = '/' := by
  unfold read? at h
  split at h
  case isTrue =>
    unfold ofBlock? at h
    obtain ⟨_, _, rfl⟩ := Option.map_eq_some_iff.1 h
    simp
  case isFalse =>
    split at h
    case h_2 => cases h
    case h_1 =>
      obtain rfl := Option.some.inj h
      simp [ofLine]

namespace Gap

variable {position : Nat} {cs rest : List Char} {c : Char}

/-- What is passed over begins with a blank or like a comment. -/
theorem skip_splits (position : Nat) (cs : List Char) :
    ∃ gap, cs = gap ++ (Gap.skip position cs).rest ∧
      (Gap.skip position cs).position = position + size gap ∧
      ∀ c ∈ gap.head?, isBlank c = true ∨ c = '-' ∨ c = '/' := by
  fun_induction Gap.skip position cs with
  | case1 position => exact ⟨[], rfl, rfl, fun _ head => by cases head⟩
  | case2 position c rest blank ih =>
    obtain ⟨gap, split, stop, _⟩ := ih
    refine ⟨c :: gap, congrArg (c :: ·) split, by simp [stop, Nat.add_assoc], ?_⟩
    rintro d ⟨⟩
    exact .inl blank
  | case3 position c rest => exact ⟨[], rfl, rfl, fun _ head => by cases head⟩
  | case4 position c rest _ comment found stop after read ih =>
    obtain ⟨gap, split, stops, _⟩ := ih
    have whole := Comment.read?_eq found
    have front := Comment.read?_source found
    refine ⟨comment.source ++ gap, ?_, ?_, fun d head => .inr ?_⟩
    · rw [whole, List.append_assoc]
      exact congrArg (comment.source ++ ·) split
    · simp only [after, stop, size_append, Nat.add_assoc] at stops ⊢
      exact stops
    · have some : comment.source ≠ [] := List.length_pos_iff.1 (by omega)
      obtain ⟨e, more, first⟩ := List.exists_cons_of_ne_nil some
      rw [first] at head
      obtain rfl : e = d := by simpa using head
      exact Comment.head_of_read? found e (by simp [first])

/-- A gap ends where there is no blank and no complete comment. -/
theorem ends_of_skip (left : (Gap.skip position cs).rest = c :: rest) :
    isBlank c = false ∧ Comment.read? (c :: rest) = none := by
  fun_induction Gap.skip position cs with
  | case1 => cases left
  | case2 _ _ _ _ ih => exact ih left
  | case3 position d ds visible none =>
    obtain ⟨rfl, rfl⟩ := List.cons.inj left
    exact ⟨by simpa using visible, none⟩
  | case4 _ _ _ _ _ _ _ _ _ ih => exact ih left

end Gap

namespace Scan

variable {previous : Option Token} {ordinal start : Nat} {cs gap source rest : List Char}
  {l : Lexeme} {ls : List Lexeme}

/-- No comment without an end follows a gap. -/
theorem startsBlock_of_run (h : (Scan.run previous ordinal start cs).outcome = .ok ls) :
    Comment.startsBlock (Gap.skip start cs).rest = false := by
  rw [run_outcome] at h
  split at h
  case h_1 ended =>
    rw [ended]
    rfl
  case h_2 c rest left =>
    split at h
    case isTrue => cases h
    case isFalse plain =>
      rw [left]
      simpa using plain

theorem startsComment_of_run (h : (Scan.run previous ordinal start cs).outcome = .ok ls) :
    startsComment (Gap.skip start cs).rest = false := by
  have block := startsBlock_of_run h
  cases left : (Gap.skip start cs).rest with
  | nil => rfl
  | cons c rest =>
    rw [left] at block
    obtain ⟨_, unread⟩ := Gap.ends_of_skip left
    rw [startsComment, block, Bool.false_or]
    refine Bool.eq_false_iff.2 fun dashes => ?_
    obtain ⟨more, same⟩ := List.isPrefixOf_iff_prefix.1 dashes
    have read : Comment.read? ('-' :: '-' :: more) = some (Comment.ofLine more) := rfl
    rw [← same] at unread
    cases read.symm.trans unread

/-- The first lexeme of a text that is known to lie between a gap and the rest. -/
theorem run_next
    (h : (Scan.run previous ordinal start (gap ++ (source ++ rest))).outcome = .ok (l :: ls))
    (starts : l.position = start + size gap) (stops : l.stop = l.position + size source) :
    ∃ c more, source = c :: more ∧ isBlank c = false ∧
      (Gap.skip start (gap ++ (source ++ rest))).rest = source ++ rest ∧
      Piece.read previous ordinal c (more ++ rest) = .ok ⟨l.kind, l.text, source, rest⟩ ∧
      (Scan.run (some l.toToken) (ordinalAfter ordinal ⟨l.kind, l.text, source, rest⟩) l.stop
        rest).outcome = .ok ls := by
  obtain ⟨passed, split, stop, _⟩ := Gap.skip_splits start (gap ++ (source ++ rest))
  rcases run_ok h with ⟨_, none⟩ | ⟨c, left, piece, later, skipped, found, same, ran⟩
  · cases none
  obtain ⟨rfl, rfl⟩ := List.cons.inj same
  obtain ⟨whole, some⟩ := Piece.read_splits found
  have gapSize : size gap = size passed := by
    simp only [Piece.lexemeAt] at starts
    omega
  obtain ⟨rfl, after⟩ := append_inj_of_size split gapSize
  have sourceSize : size source = size piece.source := by
    simp only [Piece.lexemeAt] at stops
    omega
  have together : source ++ rest = piece.source ++ piece.rest := by
    rw [after, skipped, whole]
  obtain ⟨rfl, rfl⟩ := append_inj_of_size together sourceSize
  obtain ⟨d, more, first⟩ := List.exists_cons_of_ne_nil some
  rw [first, List.cons_append] at whole
  obtain ⟨rfl, rfl⟩ := List.cons.inj whole
  exact ⟨d, more, first, (Gap.ends_of_skip skipped).1, after.symm, found, ran⟩

end Scan

/-- The plus that makes the opening of a comment a hint stays behind it. -/
def KeepsHint (cs cs' : List Char) : Prop :=
  cs.take 3 = ['/', '*', '+'] → cs'.take 2 = ['/', '*'] → cs'.take 3 = ['/', '*', '+']

/-- What touches and must not be pulled apart: two points after a number, the opening of a hint. -/
structure Touches (source rest rest' : List Char) : Prop where
  points : Literal.IsWhole source → Literal.KeepsPoints rest rest'
  hint : KeepsHint (source ++ rest) (source ++ rest')

/-- No comment parts the words of a keyword that would begin with the lexeme, or a sign from its
number. A comment after a few words parts them from no others if they make no keyword that goes on
beyond it. -/
structure Parts (previous : Option Token) (source rest rest' : List Char) : Prop where
  words : ∀ ws left left', Name.Reaches (source ++ rest) ws left →
    Name.Reaches (source ++ rest') ws left' → startsComment (left.dropWhile isBlank) = true →
      Name.longerKeyword? (Name.asPhrase ws) left' = none
  signs : startsComment (rest.dropWhile isBlank) = true →
    previous.all Token.expectsOperand = true → source = ['+'] ∨ source = ['-'] →
      Literal.startsNumber (rest'.dropWhile isBlank) = false

structure Keeps (previous : Option Token) (source rest rest' : List Char) : Prop extends
  Touches source rest rest', Parts previous source rest rest'

/-- How the text goes on with other white space in it. -/
structure Onward (cs cs' : List Char) : Prop where
  loose : Loosens cs cs'
  tight : startsComment (cs.dropWhile isBlank) = false →
    Loosens (cs.dropWhile isBlank) (cs'.dropWhile isBlank)
  ahead : ∀ phrase, Name.Unparted phrase cs cs' → Name.Alike phrase cs cs'

variable {cs cs' source rest rest' : List Char}

theorem Touches.of_ne (points : rest.take 2 ≠ ['.', '.'])
    (hint : (source ++ rest).take 3 ≠ ['/', '*', '+']) : Touches source rest rest' :=
  ⟨fun _ same => absurd same points, fun same => absurd same hint⟩

/-- A comment after the words of a lexeme and others parts no phrase that begins with the former. -/
theorem Parts.unparted {previous : Option Token} {ws : List (List Char)}
    (h : Parts previous source rest rest') (words : Name.Words source ws)
    (ended : rest.head?.any isWordChar = false) (ended' : rest'.head?.any isWordChar = false) :
    Name.Unparted (Name.asPhrase ws) rest rest' := by
  intro vs left left' reaches reaches' comment
  have none := h.words _ left left' (words.reaches ended reaches) (words.reaches ended' reaches')
    comment
  obtain ⟨w, ws, rfl⟩ := words.exists_cons
  rwa [Name.asPhrase, ← List.foldl_append]

/-- A lexeme whose first word begins no phrase may be followed by comments. -/
theorem Parts.of_alone {previous : Option Token}
    (none : startsComment ((source ++ rest).dropWhile isBlank) = false)
    (alone : Keyword.isExtendable
      (String.ofList (lowerChars (Name.next (source ++ rest)))) = false)
    (signs : source ≠ ['+'] ∧ source ≠ ['-']) : Parts previous source rest rest' := by
  constructor
  case words =>
    intro ws left left' reaches _ comment
    cases reaches with
    | here =>
      rw [none] at comment
      cases comment
    | word reads _ _ =>
      subst reads
      exact Name.longerKeyword?_foldl_alone alone _ left'
  case signs => exact fun _ _ sign => absurd sign (not_or.2 signs)

theorem Onward.follows {previous : Option Token} (h : Onward rest rest')
    (keeps : Keeps previous source rest rest') : Follows previous source rest rest' := by
  constructor
  case loose => exact h.loose
  case points => exact keeps.points
  case words =>
    intro ws words ended ended'
    exact h.ahead _ (keeps.unparted words ended ended')
  case signs =>
    intro operand sign starts
    cases comment : startsComment (rest.dropWhile isBlank) with
    | false => exact Literal.startsNumber_tight (h.tight comment) starts
    | true =>
      rw [keeps.signs comment operand sign] at starts
      cases starts

theorem Comment.startsBlock_iff (cs : List Char) : Comment.startsBlock cs = true ↔
    ['/', '*'] <+: cs ∧ cs.take 3 ≠ ['/', '*', '+'] := by
  unfold Comment.startsBlock
  split
  case h_1 => simp
  case h_2 more other =>
    simp only [List.cons_prefix_cons, List.nil_prefix, and_self, true_and, true_iff]
    intro hint
    obtain ⟨c, more, rfl⟩ : ∃ c ds, more = c :: ds := by
      cases more with
      | nil => simp at hint
      | cons c ds => exact ⟨c, ds, rfl⟩
    obtain rfl : c = '+' := by simpa using hint
    exact other more rfl
  case h_3 cs _ other =>
    simp only [Bool.false_eq_true, false_iff, not_and]
    rintro ⟨more, rfl⟩
    exact absurd rfl (other more)

/-- No comment comes to begin where a lexeme does. -/
theorem startsComment_loosened (h : startsComment cs = false) (loose : Loosens cs cs')
    (hint : KeepsHint cs cs') : startsComment cs' = false := by
  simp only [startsComment, Bool.or_eq_false_iff] at h ⊢
  obtain ⟨block, dashes⟩ := h
  constructor
  · refine Bool.eq_false_iff.2 fun starts => ?_
    obtain ⟨opening, plain⟩ := (Comment.startsBlock_iff cs').1 starts
    have opening₀ : ['/', '*'] <+: cs := loose.front (by decide) opening
    refine plain (hint ?_ (List.prefix_iff_eq_take.1 opening).symm)
    by_contra plain₀
    rw [(Comment.startsBlock_iff cs).2 ⟨opening₀, plain₀⟩] at block
    cases block
  · refine Bool.eq_false_iff.2 fun starts => ?_
    have front := loose.front (by decide) (List.isPrefixOf_iff_prefix.1 starts)
    rw [List.isPrefixOf_iff_prefix.2 front] at dashes
    cases dashes

/-- A comment is no word of a phrase. -/
theorem next_comment (h : startsComment (cs.dropWhile isBlank) = true) : Name.next cs = [] := by
  rw [Name.next]
  cases left : cs.dropWhile isBlank with
  | nil => rfl
  | cons c rest =>
    have mark : c = '/' ∨ c = '-' := by
      by_contra other
      rw [not_or] at other
      rw [left, startsComment_of_ne other.1 other.2] at h
      cases h
    rcases mark with rfl | rfl <;> rfl

/-- Other white space in front of what goes on alike. -/
theorem Onward.gap {gap gap' : List Char} (between : Blanked gap gap')
    (reach : startsComment ((gap ++ cs).dropWhile isBlank) = false →
      (gap ++ cs).dropWhile isBlank = cs)
    (plain : cs'.head?.any isBlank = false) (loose : Loosens cs cs')
    (ahead : ∀ phrase, Name.Unparted phrase cs cs' → Name.Alike phrase cs cs') :
    Onward (gap ++ cs) (gap' ++ cs') := by
  obtain ⟨_, left⟩ := Prod.mk.inj (Literal.run_append_of between.blank plain)
  constructor
  case loose =>
    cases gap' with
    | nil =>
      have none : gap = [] := by
        by_contra some
        exact between.some some rfl
      rw [none]
      exact loose
    | cons b gap' => exact .of_blank (between.blank b List.mem_cons_self) _ _
  case tight =>
    intro comment
    rw [reach comment, left]
    exact loose
  case ahead =>
    intro phrase unparted
    -- A comment stops a phrase in the first text, and in the second text no keyword goes on with it.
    cases comment : startsComment ((gap ++ cs).dropWhile isBlank) with
    | true =>
      have none : Name.longerKeyword? phrase (gap ++ cs) = none :=
        Name.longerKeyword?_ended (next_comment comment)
      exact .of_none none (unparted.here comment)
    | false =>
      have blank : ∀ c ∈ (gap ++ cs).takeWhile isBlank, isBlank c = true :=
        fun c mem => List.mem_takeWhile_imp mem
      rw [← List.takeWhile_append_dropWhile (p := isBlank) (l := gap ++ cs), reach comment]
        at unparted ⊢
      exact (ahead phrase (unparted.unspaced blank between.blank)).spaced blank between.blank

namespace Respaced

variable {previous : Option Token} {ordinal start : Nat} {ls : List Lexeme}

/-- A text with other white space goes on with what the first text goes on with. -/
theorem onward
    (h : Respaced Blanked Keeps previous start ls cs cs')
    (ran : (Scan.run previous ordinal start cs).outcome = .ok ls) : Onward cs cs' := by
  induction h generalizing ordinal with
  | @last previous start gap gap' between =>
    have reach : startsComment ((gap ++ []).dropWhile isBlank) = false →
        (gap ++ []).dropWhile isBlank = [] := by
      intro comment
      rw [List.append_nil] at comment ⊢
      rcases Scan.run_ok ran with ⟨ended, _⟩ | ⟨_, _, _, _, _, _, some, _⟩
      · rw [← Gap.skip_blanks comment, ended]
      · cases some
    have gone := Onward.gap between reach rfl (.refl []) fun _ _ => Eq.refl _
    rwa [List.append_nil, List.append_nil] at gone
  | @next previous start l ls gap gap' source rest rest' between starts stops after _ ih =>
    obtain ⟨c, more, rfl, plain, left, read, ran'⟩ := Scan.run_next ran starts stops
    have onward := ih ran'
    refine .gap between (fun comment => ?_) plain (onward.loose.append _) fun phrase unparted => ?_
    · rw [← Gap.skip_blanks comment, left]
    · exact (Piece.front read plain).alike onward.loose unparted onward.ahead

/-- A text scans into the same lexemes whatever white space stands between them. -/
theorem scans_alike
    (h : Respaced Blanked Keeps previous start ls cs cs')
    (ran : (Scan.run previous ordinal start cs).outcome = .ok ls) (start' : Nat) :
    ∃ ls', (Scan.run previous ordinal start' cs').outcome = .ok ls' ∧ tokens ls' = tokens ls := by
  -- The positions differ, and what comes before a lexeme but the token there means nothing to it.
  induction h generalizing ordinal start' with
  | @last previous start gap gap' between =>
    have gone : gap'.dropWhile isBlank = [] := by simpa using between.blank
    have ended : (Gap.skip start' gap').rest = [] := by
      rw [Gap.skip_blanks (by rw [gone]; rfl), gone]
    exact ⟨[], Scan.run_ended ended, rfl⟩
  | @next previous start l ls gap gap' source rest rest' between starts stops after later ih =>
    obtain ⟨c, more, rfl, plain, left, read, ran'⟩ := Scan.run_next ran starts stops
    have onward := later.onward ran'
    have follows := onward.follows after
    have noComment := Scan.startsComment_of_run ran
    rw [left] at noComment
    have noComment' : startsComment (c :: (more ++ rest')) = false :=
      startsComment_loosened noComment (onward.loose.append (c :: more)) after.hint
    have read' := Piece.read_loosened read follows
    have visible : (c :: (more ++ rest')).head?.any isBlank = false := plain
    obtain ⟨_, dropped⟩ := Prod.mk.inj (Literal.run_append_of between.blank visible)
    have left' : (Gap.skip start' (gap' ++ (c :: (more ++ rest')))).rest = c :: (more ++ rest') := by
      rw [Gap.skip_blanks (by rwa [dropped]), dropped]
    obtain ⟨ls', again, same⟩ := ih ran' _
    exact ⟨_, Scan.run_piece left' noComment' read' again, congrArg (_ :: ·) same⟩

/-- Where a lexeme was read no comment begins, and a phrase meets what it meets at a piece. -/
theorem front_of_run {l : Lexeme} {gap : List Char}
    (ran : (Scan.run previous ordinal start (gap ++ (source ++ rest))).outcome = .ok (l :: ls))
    (starts : l.position = start + size gap) (stops : l.stop = l.position + size source) :
    Piece.Front source rest ∧ startsComment ((source ++ rest).dropWhile isBlank) = false ∧
      ∃ ordinal', (Scan.run (some l.toToken) ordinal' l.stop rest).outcome = .ok ls := by
  obtain ⟨c, more, rfl, plain, left, read, ran'⟩ := Scan.run_next ran starts stops
  refine ⟨Piece.front read plain, ?_, _, ran'⟩
  rw [List.cons_append, List.dropWhile_cons_of_neg (by simp [plain])]
  have none := Scan.startsComment_of_run ran
  rwa [left] at none

/-- What is known of the gaps and of what comes after the lexemes may be taken from the scan. -/
theorem imp {gaps gaps' : List Char → List Char → Prop}
    {keeps keeps' : Option Token → List Char → List Char → List Char → Prop}
    (h : Respaced gaps keeps previous start ls cs cs')
    (ran : (Scan.run previous ordinal start cs).outcome = .ok ls)
    (between : ∀ gap gap', gaps gap gap' → gaps' gap gap')
    (after : ∀ {previous t ordinal start ls source rest rest'}, Piece.Front source rest →
      startsComment ((source ++ rest).dropWhile isBlank) = false →
        (Scan.run t ordinal start rest).outcome = .ok ls →
          Respaced gaps keeps t start ls rest rest' → keeps previous source rest rest' →
            keeps' previous source rest rest') : Respaced gaps' keeps' previous start ls cs cs' := by
  induction h generalizing ordinal with
  | last gap => exact .last (between _ _ gap)
  | next gap starts stops kept later ih =>
    obtain ⟨front, none, _, ran'⟩ := front_of_run ran starts stops
    exact .next (between _ _ gap) starts stops (after front none ran' later kept) (ih ran')

end Respaced

end SqlQuery
