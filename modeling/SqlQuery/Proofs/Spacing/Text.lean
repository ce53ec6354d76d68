import SqlQuery.Proofs.Spacing.Scan

/-!
Texts that differ in nothing but the white space and the comments between their lexemes.
-/

namespace SqlQuery

open Text Lexeme

variable {source rest rest' cs cs' : List Char}

/-- The second text has other gaps around the lexemes of the first one, but it scans into other lexemes
or into none. -/
def Alters (gaps : List Char → List Char → Prop) (text text' : String) : Prop :=
  ∃ lexemes, (scan text).2 = .ok lexemes ∧
    Respaced gaps (fun _ _ _ _ => True) none 0 lexemes text.toList text'.toList ∧
      ∀ lexemes', (scan text').2 = .ok lexemes' → tokens lexemes' ≠ tokens lexemes

theorem Alters.of_tokens {gaps : List Char → List Char → Prop} {text text' : String}
    {lexemes lexemes' : List Lexeme} (h : (scan text).2 = .ok lexemes)
    (h' : (scan text').2 = .ok lexemes') (other : tokens lexemes' ≠ tokens lexemes)
    (respaced : Respaced gaps (fun _ _ _ _ => True) none 0 lexemes text.toList text'.toList) :
    Alters gaps text text' := by
  refine ⟨lexemes, h, respaced, fun again ran => ?_⟩
  obtain rfl := Except.ok.inj (h'.symm.trans ran)
  exact other

/-- White space for white space. -/
def Reblanked (gap gap' : List Char) : Prop :=
  (∀ c ∈ gap, isBlank c = true) ∧ Blanked gap gap'

instance (gap gap' : List Char) : Decidable (Reblanked gap gap') :=
  decidable_of_iff (gap.all isBlank = true ∧ Blanked gap gap') (and_congr_left' List.all_eq_true)

/-- A comment that is reached over a piece comes after a number or over words behind the piece. -/
theorem Piece.Front.of_reaches {gap left v : List Char} {vs : List (List Char)}
    (h : Piece.Front source rest) (blank : ∀ c ∈ gap, isBlank c = true)
    (reaches : Name.Reaches (gap ++ (source ++ rest)) (v :: vs) left)
    (comment : startsComment (left.dropWhile isBlank) = true) :
    Name.isNumeral v = true ∨ ∃ us, (∀ u ∈ us, u ∈ v :: vs) ∧ Name.Reaches rest us left := by
  cases h with
  | mark plain mark =>
    rw [Name.reaches_blanks blank] at reaches
    cases reaches with
    | word reads some _ => exact absurd (reads.symm.trans (Name.next_mark plain mark _)) some
  | digit digit =>
    rw [Name.reaches_blanks blank] at reaches
    cases reaches with
    | word reads some _ =>
      subst reads
      exact .inl ((Name.next_digit digit _).resolve_left some)
  | words words ended => exact .inr (words.of_reaches ended blank reaches comment)
  | @specifier c d more _ word mark =>
    rw [Name.reaches_blanks blank] at reaches
    obtain ⟨blank, plain, slash, minus⟩ :
        isBlank d = false ∧ isWordChar d = false ∧ d ≠ '/' ∧ d ≠ '-' := by
      rcases mark with rfl | rfl <;> decide
    have chars : ∀ e ∈ [c], isWordChar e = true := by simp [word]
    have ended : (d :: (more ++ rest)).head?.any isWordChar = false := plain
    cases reaches with
    | word _ _ later =>
      change Name.Reaches (Name.afterNext ([c] ++ (d :: (more ++ rest)))) vs left at later
      rw [(Name.next_front (List.cons_ne_nil c []) chars ended).2] at later
      cases later with
      | here =>
        rw [List.dropWhile_cons_of_neg (by simp [blank]), startsComment_of_ne slash minus] at comment
        cases comment
      | word reads some _ => exact absurd (reads.symm.trans (Name.next_mark blank plain _)) some

/-- Where gaps are blank a comment is reached after a number alone. -/
theorem Respaced.numeral_of_comment {previous : Option Token} {ordinal start : Nat} {ls : List Lexeme}
    {keeps : Option Token → List Char → List Char → List Char → Prop} {vs : List (List Char)}
    {left : List Char} (h : Respaced Reblanked keeps previous start ls cs cs')
    (ran : (Scan.run previous ordinal start cs).outcome = .ok ls) (reaches : Name.Reaches cs vs left)
    (comment : startsComment (left.dropWhile isBlank) = true) : ∃ v ∈ vs, Name.isNumeral v = true := by
  induction h generalizing ordinal vs with
  | last between =>
    have gone := List.dropWhile_eq_nil_iff.2 between.1
    cases reaches with
    | here =>
      rw [gone] at comment
      cases comment
    | word reads some _ =>
      rw [Name.next, gone] at reads
      exact absurd reads.symm some
  | next between starts stops after later ih =>
    obtain ⟨front, none, _, ran'⟩ := front_of_run ran starts stops
    cases vs with
    | nil =>
      cases reaches
      rw [List.dropWhile_append_of_pos between.1, none] at comment
      cases comment
    | cons v vs =>
      rcases front.of_reaches between.1 reaches comment with numeral | ⟨us, among, reached⟩
      · exact ⟨v, List.mem_cons_self, numeral⟩
      · obtain ⟨u, mem, numeral⟩ := ih ran' reached
        exact ⟨u, among u mem, numeral⟩

theorem Parts.of_blank {previous t : Option Token} {ordinal start : Nat} {ls : List Lexeme}
    {keeps : Option Token → List Char → List Char → List Char → Prop}
    (front : Piece.Front source rest) (none : startsComment ((source ++ rest).dropWhile isBlank) = false)
    (ran : (Scan.run t ordinal start rest).outcome = .ok ls)
    (h : Respaced Reblanked keeps t start ls rest rest') : Parts previous source rest rest' := by
  constructor
  case words =>
    intro ws left left' reaches _ comment
    cases ws with
    | nil =>
      cases reaches
      rw [none] at comment
      cases comment
    | cons v ws =>
      refine Name.longerKeyword?_of_numeral ?_ left'
      rcases front.of_reaches (List.forall_mem_nil _) reaches comment with numeral | ⟨us, among, reached⟩
      · exact ⟨v, List.mem_cons_self, numeral⟩
      · obtain ⟨u, mem, numeral⟩ := h.numeral_of_comment ran reached comment
        exact ⟨u, among u mem, numeral⟩
  case signs =>
    intro comment
    obtain ⟨v, mem, _⟩ := h.numeral_of_comment ran .here comment
    cases mem

/--
Layout does not matter. Where all gaps of a text are white space, any other white space may stand in
them, as long as some does where some did, and white space may be put where lexemes touch: the text
still scans into the same lexemes. Two points after a number of digits alone may be pulled apart only
if the first of them is pulled away from the number, and the plus behind the opening of a comment only
if the opening is itself pulled apart.
-/
theorem scan_reblanked {text text' : String} {lexemes : List Lexeme}
    (h : (scan text).2 = .ok lexemes)
    (spaced : Respaced Reblanked (fun _ => Touches) none 0 lexemes text.toList text'.toList) :
    ∃ lexemes', (scan text').2 = .ok lexemes' ∧ tokens lexemes' = tokens lexemes := by
  have ran := Scan.run_of_scan h
  have respaced : Respaced Blanked Keeps none 0 lexemes text.toList text'.toList := by
    refine spaced.imp ran (fun _ _ => And.right) fun front none ran later touches => ?_
    exact ⟨touches, .of_blank front none ran later⟩
  obtain ⟨lexemes', ran', same⟩ := respaced.scans_alike ran 0
  refine ⟨lexemes', ?_, same⟩
  rw [scan, ran']
  rfl

/-- Lexemes that touched are pulled apart, and others that did not touch are pulled further apart. -/
theorem scan_reblanked_looser : ∃ lexemes, (scan "a <=1.5").2 = .ok lexemes ∧
    ∃ lexemes', (scan "a\n\t<= 1.5 ").2 = .ok lexemes' ∧ tokens lexemes' = tokens lexemes := by
  have scanned : (scan "a <=1.5").2 = .ok [⟨⟨.identifier, "a"⟩, 0, 1⟩, ⟨⟨.operator, "<="⟩, 2, 4⟩,
    ⟨⟨.literal, "1.5"⟩, 4, 7⟩] := by decide +kernel
  refine ⟨_, scanned, scan_reblanked scanned ?_⟩
  refine @Respaced.next _ _ _ _ _ _ [] [] ['a'] (" <=1.5".toList) ("\n\t<= 1.5 ".toList)
    (by decide) rfl rfl (.of_ne (by decide) (by decide)) ?_
  refine @Respaced.next _ _ _ _ _ _ [' '] ['\n', '\t'] ['<', '='] ("1.5".toList) (" 1.5 ".toList)
    (by decide) rfl rfl (.of_ne (by decide) (by decide)) ?_
  refine @Respaced.next _ _ _ _ _ _ [] [' '] ['1', '.', '5'] [] [' ']
    (by decide) rfl rfl (.of_ne (by decide) (by decide)) ?_
  exact .last (by decide)

/-- A point goes to the number before it when the second point is pulled away, and an opening of a
comment is no hint any more when the plus is. -/
theorem alters_pulled_apart :
    Alters Reblanked "1..2" "1. .2" ∧ Alters Reblanked "/*+" "/* +" := by
  constructor
  · have scanned : (scan "1..2").2 = .ok [⟨⟨.literal, "1"⟩, 0, 1⟩, ⟨⟨.dot, "."⟩, 1, 2⟩,
      ⟨⟨.literal, "0.2"⟩, 2, 4⟩] := by decide +kernel
    have scanned' : (scan "1. .2").2 = .ok [⟨⟨.literal, "1."⟩, 0, 2⟩,
      ⟨⟨.literal, "0.2"⟩, 3, 5⟩] := by decide +kernel
    refine .of_tokens scanned scanned' (by decide) ?_
    refine @Respaced.next _ _ _ _ _ _ [] [] ['1'] ("..2".toList) (". .2".toList)
      (by decide) rfl rfl trivial ?_
    refine @Respaced.next _ _ _ _ _ _ [] [] ['.'] (".2".toList) (" .2".toList)
      (by decide) rfl rfl trivial ?_
    refine @Respaced.next _ _ _ _ _ _ [] [' '] ['.', '2'] [] []
      (by decide) rfl rfl trivial ?_
    exact .last (by decide)
  · refine ⟨[⟨⟨.operator, "/"⟩, 0, 1⟩, ⟨⟨.operator, "*"⟩, 1, 2⟩, ⟨⟨.operator, "+"⟩, 2, 3⟩],
      by decide +kernel, ?_, ?_⟩
    · refine @Respaced.next _ _ _ _ _ _ [] [] ['/'] ("*+".toList) ("* +".toList)
        (by decide) rfl rfl trivial ?_
      refine @Respaced.next _ _ _ _ _ _ [] [] ['*'] ("+".toList) (" +".toList)
        (by decide) rfl rfl trivial ?_
      refine @Respaced.next _ _ _ _ _ _ [] [' '] ['+'] [] []
        (by decide) rfl rfl trivial ?_
      exact .last (by decide)
    · have failed : (scan "/* +").2.toOption = none := by decide +kernel
      rintro _ again
      rw [again] at failed
      cases failed

/-- White space for a gap of any kind, and none where there was none. -/
structure Uncommented (gap gap' : List Char) : Prop extends Blanked gap gap' where
  none : gap = [] → gap' = []

instance (gap gap' : List Char) : Decidable (Uncommented gap gap') :=
  decidable_of_iff (Blanked gap gap' ∧ (gap = [] → gap' = []))
    ⟨fun h => ⟨h.1, h.2⟩, fun h => ⟨h.toBlanked, h.none⟩⟩

theorem prefix_append_of {p : List Char} (starts : p <+: source ++ rest)
    (later : ∀ q, q <:+ p → q <+: rest → q <+: rest') : p <+: source ++ rest' := by
  rcases List.prefix_or_prefix_of_prefix starts (List.prefix_append source rest) with
    inside | ⟨q, rfl⟩
  · exact inside.trans (List.prefix_append source rest')
  · rw [List.prefix_append_right_inj] at starts ⊢
    exact later q (List.suffix_append source q) starts

/-- No gap begins with the character. -/
def isTight (c : Char) : Bool := !(isBlank c || c == '-' || c == '/')

theorem all_of_suffix {p q : List Char} {tight : Char → Bool} (all : p.all tight = true)
    (suffix : q <:+ p) : q.all tight = true :=
  List.all_eq_true.2 fun c mem => List.all_eq_true.1 all c (suffix.subset mem)

theorem Gap.eq_nil_of_tight {gap p : List Char} {start : Nat}
    (left : (Gap.skip start (gap ++ rest)).rest = rest) (some : p ≠ []) (tight : p.all isTight = true)
    (starts : p <+: gap ++ rest) : gap = [] := by
  obtain ⟨passed, split, _, head⟩ := Gap.skip_splits start (gap ++ rest)
  rw [left] at split
  obtain rfl := List.append_cancel_right split
  cases gap with
  | nil => rfl
  | cons d gap =>
    obtain ⟨c, p, rfl⟩ := List.exists_cons_of_ne_nil some
    obtain ⟨rfl, _⟩ := List.cons_prefix_cons.1 starts
    obtain ⟨first, _⟩ := Bool.and_eq_true_iff.1 tight
    rcases head c rfl with blank | rfl | rfl
    · rw [isTight, blank] at first
      cases first
    · cases first
    · cases first

/-- A front that no gap can begin in stays together. -/
theorem Respaced.front {previous : Option Token} {ordinal start : Nat} {ls : List Lexeme}
    {keeps : Option Token → List Char → List Char → List Char → Prop} {p : List Char}
    (h : Respaced Uncommented keeps previous start ls cs cs')
    (ran : (Scan.run previous ordinal start cs).outcome = .ok ls) (tight : p.all isTight = true)
    (starts : p <+: cs) : p <+: cs' := by
  -- As far as the front goes there are no gaps in the first text, and so none in the second.
  induction h generalizing ordinal p with
  | @last previous start gap gap' between =>
    by_cases some : p = []
    · rw [some]
      exact List.nil_prefix
    · have left : (Gap.skip start (gap ++ [])).rest = [] := by
        rw [List.append_nil]
        rcases Scan.run_ok ran with ⟨ended, _⟩ | ⟨_, _, _, _, _, _, none, _⟩
        · exact ended
        · cases none
      rw [← List.append_nil gap] at starts
      obtain rfl := Gap.eq_nil_of_tight left some tight starts
      exact absurd (List.prefix_nil.1 starts) some
  | @next previous start l ls gap gap' source rest rest' between starts' stops _ _ ih =>
    by_cases some : p = []
    · rw [some]
      exact List.nil_prefix
    · obtain ⟨_, _, _, _, left, _, ran'⟩ := Scan.run_next ran starts' stops
      obtain rfl := Gap.eq_nil_of_tight left some tight starts
      rw [between.none rfl]
      rw [List.nil_append] at starts ⊢
      exact prefix_append_of starts fun q suffix front =>
        ih ran' (all_of_suffix tight suffix) front

/-- Where lexemes still touch, nothing is pulled apart. -/
theorem Respaced.touches {previous : Option Token} {ordinal start : Nat} {ls : List Lexeme}
    {keeps : Option Token → List Char → List Char → List Char → Prop}
    (h : Respaced Uncommented keeps previous start ls rest rest')
    (ran : (Scan.run previous ordinal start rest).outcome = .ok ls) (some : source ≠ []) :
    Touches source rest rest' := by
  constructor
  case points =>
    intro _ points _
    have starts : ['.', '.'] <+: rest := ⟨rest.drop 2, by rw [← points, List.take_append_drop]⟩
    exact (List.prefix_iff_eq_take.1 (h.front ran (by decide) starts)).symm
  case hint =>
    intro hint _
    obtain ⟨c, more, rfl⟩ := List.exists_cons_of_ne_nil some
    have starts : ['/', '*', '+'] <+: c :: (more ++ rest) := by
      refine ⟨(c :: (more ++ rest)).drop 3, ?_⟩
      rw [← hint, List.cons_append, List.take_append_drop]
    obtain ⟨rfl, opening⟩ := List.cons_prefix_cons.1 starts
    have kept : ['*', '+'] <+: more ++ rest' := by
      exact prefix_append_of opening fun q suffix front =>
        h.front ran (all_of_suffix (by decide) suffix) front
    exact (List.prefix_iff_eq_take.1 (List.cons_prefix_cons.2 ⟨rfl, kept⟩)).symm

/--
A comment counts as white space. Where a text that scans has gaps of any kind, white space may stand in
the place of each of them, also of the comments, and the text still scans into the same lexemes. That
is as long as no comment stood inside what is a keyword of several words without it, or between a sign
and a number where the sign could belong to it.
-/
theorem scan_uncommented {text text' : String} {lexemes : List Lexeme}
    (h : (scan text).2 = .ok lexemes)
    (cleared : Respaced Uncommented Parts none 0 lexemes text.toList text'.toList) :
    ∃ lexemes', (scan text').2 = .ok lexemes' ∧ tokens lexemes' = tokens lexemes := by
  have ran := Scan.run_of_scan h
  have respaced : Respaced Blanked Keeps none 0 lexemes text.toList text'.toList := by
    refine cleared.imp ran (fun _ _ => Uncommented.toBlanked) fun front _ ran later parts => ?_
    exact ⟨later.touches ran front.ne_nil, parts⟩
  obtain ⟨lexemes', ran', same⟩ := respaced.scans_alike ran 0
  refine ⟨lexemes', ?_, same⟩
  rw [scan, ran']
  rfl

/-- A line comment and its newline become one blank, and a block comment becomes another. -/
theorem scan_uncommented_both : ∃ lexemes, (scan "a--x\n=/*y*/1").2 = .ok lexemes ∧
    ∃ lexemes', (scan "a = 1").2 = .ok lexemes' ∧ tokens lexemes' = tokens lexemes := by
  have scanned : (scan "a--x\n=/*y*/1").2 = .ok [⟨⟨.identifier, "a"⟩, 0, 1⟩,
    ⟨⟨.operator, "="⟩, 5, 6⟩, ⟨⟨.literal, "1"⟩, 11, 12⟩] := by decide +kernel
  refine ⟨_, scanned, scan_uncommented scanned ?_⟩
  refine @Respaced.next _ _ _ _ _ _ [] [] ['a'] ("--x\n=/*y*/1".toList) (" = 1".toList)
    (by decide) rfl rfl
    (.of_alone (by decide) (by decide) (by decide)) ?_
  refine @Respaced.next _ _ _ _ _ _ ("--x\n".toList) [' '] ['='] ("/*y*/1".toList) (" 1".toList)
    (by decide) rfl rfl
    (.of_alone (by decide) (by decide) (by decide)) ?_
  refine @Respaced.next _ _ _ _ _ _ ("/*y*/".toList) [' '] ['1'] [] []
    (by decide) rfl rfl (.of_alone (by decide) (by decide) (by decide)) ?_
  exact .last (by decide)

/-- Words that a comment parts are no phrase, and a sign and a number that it parts no number. -/
theorem alters_parted :
    Alters Uncommented "group/**/by" "group by" ∧ Alters Uncommented "-/**/1" "- 1" := by
  constructor
  · have scanned : (scan "group/**/by").2 = .ok [⟨⟨.identifier, "group"⟩, 0, 5⟩,
      ⟨⟨.identifier, "by"⟩, 9, 11⟩] := by decide +kernel
    have scanned' : (scan "group by").2 = .ok [⟨⟨.command, "group by"⟩, 0, 8⟩] := by decide +kernel
    refine .of_tokens scanned scanned' (by decide) ?_
    refine @Respaced.next _ _ _ _ _ _ [] [] ("group".toList) ("/**/by".toList) (" by".toList)
      (by decide) rfl rfl trivial ?_
    refine @Respaced.next _ _ _ _ _ _ ("/**/".toList) [' '] ("by".toList) [] []
      (by decide) rfl rfl trivial ?_
    exact .last (by decide)
  · have scanned : (scan "-/**/1").2 = .ok [⟨⟨.operator, "-"⟩, 0, 1⟩,
      ⟨⟨.literal, "1"⟩, 5, 6⟩] := by decide +kernel
    have scanned' : (scan "- 1").2 = .ok [⟨⟨.literal, "-1"⟩, 0, 3⟩] := by decide +kernel
    refine .of_tokens scanned scanned' (by decide) ?_
    refine @Respaced.next _ _ _ _ _ _ [] [] ['-'] ("/**/1".toList) (" 1".toList)
      (by decide) rfl rfl trivial ?_
    refine @Respaced.next _ _ _ _ _ _ ("/**/".toList) [' '] ['1'] [] []
      (by decide) rfl rfl trivial ?_
    exact .last (by decide)

end SqlQuery
