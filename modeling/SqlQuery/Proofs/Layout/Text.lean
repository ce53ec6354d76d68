import Mathlib.Data.List.Chain
import SqlQuery.Proofs.Layout.Gap
import SqlQuery.Proofs.Lexeme.Inversion

/-!
A scan loses no text: its lexemes and the gaps between them cover the text in order, a gap is blanks
and complete comments, and every comment recorded stands in a gap.
-/

namespace SqlQuery

open Text (size)

/-- No character of the text goes over the position. -/
def IsBoundary (text : List Char) (position : Nat) : Prop :=
  ∃ before after, text = before ++ after ∧ size before = position

theorem IsBoundary.le {text : List Char} {position : Nat} (h : IsBoundary text position) :
    position ≤ size text := by
  obtain ⟨before, after, rfl, rfl⟩ := h
  simp

theorem Text.size_toList (text : String) : size text.toList = text.utf8ByteSize := by
  rw [← String.ofList_toList (s := text), String.toList_ofList]
  induction text.toList with
  | nil => rfl
  | cons c cs ih =>
    rw [String.ofList_cons]
    simp [ih]

theorem IsBoundary.isValid {text : String} {position : Nat}
    (h : IsBoundary text.toList position) : String.Pos.Raw.IsValid text ⟨position⟩ := by
  obtain ⟨before, after, split, rfl⟩ := h
  refine String.Pos.Raw.isValid_iff_exists_append.2
    ⟨String.ofList before, String.ofList after, ?_, ?_⟩
  · rw [← String.ofList_append, ← split, String.ofList_toList]
  · rw [← String.toList_ofList (l := before), Text.size_toList, String.toList_ofList]
    rfl

/-- Blanks and complete comments stand between the positions. -/
def GapBetween (text : List Char) (start stop : Nat) : Prop :=
  ∃ before source rest, text = before ++ (source ++ rest) ∧ size before = start ∧
    stop = start + size source ∧ IsGap rest source

/-- Where the gaps are, from a position on: before, between and after the lexemes. -/
def gapsFrom (start stop : Nat) : List Lexeme → List (Nat × Nat)
  | [] => [(start, stop)]
  | l :: ls => (start, l.position) :: gapsFrom l.stop stop ls

/-- From a position on, the text is these lexemes with gaps around them, and the comments of these
are recorded. -/
structure Layout (text : List Char) (start : Nat) (lexemes comments : List Lexeme) : Prop where
  lexeme : ∀ l ∈ lexemes,
    l.position < l.stop ∧ IsBoundary text l.position ∧ IsBoundary text l.stop
  ordered : lexemes.IsChain fun a b => a.stop ≤ b.position
  inside : ∀ l ∈ lexemes, l.stop ≤ size text
  gap : ∀ g ∈ gapsFrom start (size text) lexemes, GapBetween text g.1 g.2
  comment : ∀ c ∈ comments, ∃ g ∈ gapsFrom start (size text) lexemes,
    g.1 ≤ c.position ∧ c.stop ≤ g.2
  recorded : Recorded text start comments (size text)

namespace Layout

variable {text : List Char} {start : Nat} {lexemes comments : List Lexeme}

theorem le_position (h : Layout text start lexemes comments) :
    ∀ l ∈ lexemes.head?, start ≤ l.position := by
  intro l head
  obtain ⟨ls, rfl⟩ := List.head?_eq_some_iff.1 head
  obtain ⟨_, source, _, _, _, stop, _⟩ := h.gap (start, l.position) List.mem_cons_self
  dsimp only at stop
  omega

/-- The last gap. -/
theorem ended {before cs source : List Char} {gap : Gap} (whole : text = before ++ cs)
    (here : start = size before) (passes : gap.Passes text start cs source)
    (ended : gap.rest = []) : Layout text start [] gap.comments := by
  have split := passes.split
  have gapStop := passes.stops
  have isGap := passes.isGap
  rw [ended] at split isGap
  have stop : size text = gap.position := by simp [whole, split, gapStop, here]
  refine ⟨nofun, .nil, nofun, fun g mem => ?_, fun c mem => ?_, stop ▸ passes.recorded⟩
  · obtain rfl := List.mem_singleton.1 mem
    exact ⟨before, source, [], by simp [whole, split], here.symm, stop.trans gapStop, isGap⟩
  · exact ⟨_, List.mem_singleton_self _, (passes.within c mem).1,
      (passes.within c mem).2.trans stop.ge⟩

/-- A gap and a lexeme in front. -/
theorem lexemeAt {before cs source : List Char} {gap : Gap} {piece : Piece}
    (whole : text = before ++ cs) (here : start = size before)
    (passes : gap.Passes text start cs source) (splits : piece.Splits gap.rest)
    (later : Layout text (piece.lexemeAt gap.position).stop lexemes comments) :
    Layout text start (piece.lexemeAt gap.position :: lexemes) (gap.comments ++ comments) := by
  have gapStop := passes.stops
  have placed : text = (before ++ source) ++ (piece.source ++ piece.rest) := by
    rw [whole, passes.split, splits.1, List.append_assoc]
  have taken : 0 < size piece.source := by
    obtain ⟨c, cs, eq⟩ := List.exists_cons_of_ne_nil splits.2
    have := c.utf8Size_pos
    simp only [eq, Text.size_cons]
    omega
  have low : size (before ++ source) = gap.position := by simp [gapStop, here]
  have high : IsBoundary text (piece.lexemeAt gap.position).stop := by
    refine ⟨before ++ source ++ piece.source, piece.rest, by simp [placed], ?_⟩
    rw [Text.size_append, low]
    rfl
  constructor
  · rw [List.forall_mem_cons]
    exact ⟨⟨by simp only [Piece.lexemeAt]; omega, ⟨_, _, placed, low⟩, high⟩, later.lexeme⟩
  · exact (List.isChain_cons ..).2 ⟨later.le_position, later.ordered⟩
  · exact List.forall_mem_cons.2 ⟨high.le, later.inside⟩
  · refine List.forall_mem_cons.2 ⟨⟨before, source, piece.source ++ piece.rest, ?_, ?_⟩, later.gap⟩
    · rw [placed, List.append_assoc]
    · exact ⟨here.symm, gapStop, splits.1 ▸ passes.isGap⟩
  · intro c mem
    rcases List.mem_append.1 mem with mem | mem
    · exact ⟨_, List.mem_cons_self, passes.within c mem⟩
    · obtain ⟨g, among, within⟩ := later.comment c mem
      exact ⟨g, List.mem_cons_of_mem _ among, within⟩
  · exact passes.recorded.append (later.recorded.weaken (Nat.le_add_right ..))

end Layout

namespace Scan

variable {previous : Option Token} {ordinal position : Nat} {cs : List Char}
  {lexemes : List Lexeme}

/-- A scan that ends after a gap records the comments of the gap. -/
theorem run_comments_over (ended : (Gap.skip position cs).rest = []) :
    (Scan.run previous ordinal position cs).comments = (Gap.skip position cs).comments := by
  rw [Scan.run]
  dsimp only [withComments]
  split
  · exact List.append_nil _
  · rename_i left
    rw [ended] at left
    cases left

/-- A scan that goes on records the comments of the gap, and then those of what is left. -/
theorem run_comments_next {c : Char} {rest : List Char} {piece : Piece}
    (h : (Scan.run previous ordinal position cs).outcome = .ok lexemes)
    (left : (Gap.skip position cs).rest = c :: rest)
    (found : Piece.read previous ordinal c rest = .ok piece) :
    (Scan.run previous ordinal position cs).comments = (Gap.skip position cs).comments ++
      (Scan.run (some ⟨piece.kind, piece.text⟩) (ordinalAfter ordinal piece)
        (piece.lexemeAt (Gap.skip position cs).position).stop piece.rest).comments := by
  rw [Scan.run] at h ⊢
  dsimp only [withComments] at h ⊢
  congr 1
  split
  case h_1 ended => simp [left] at ended
  case h_2 c' rest' left' =>
    obtain ⟨rfl, rfl⟩ := List.cons.inj (left.symm.trans left')
    split
    case isTrue block =>
      split at h
      · simp_all
      · simp_all
    case isFalse =>
      split
      · simp_all
      · rename_i found'
        obtain rfl := Except.ok.inj (found.symm.trans found')
        rfl

/-- What a scan reads from a position on is the layout of the text there. -/
theorem run_layout {text before : List Char} (whole : text = before ++ cs)
    (here : position = size before)
    (h : (Scan.run previous ordinal position cs).outcome = .ok lexemes) :
    Layout text position lexemes (Scan.run previous ordinal position cs).comments := by
  induction measured : cs.length using Nat.strongRecOn
    generalizing before cs previous ordinal position lexemes with
  | ind n ih =>
    obtain ⟨source, passes⟩ := Gap.skip_passes whole here
    rcases run_ok h with ⟨ended, rfl⟩ | ⟨c, rest, piece, later, left, found, rfl, ran⟩
    · rw [run_comments_over ended]
      exact .ended whole here passes ended
    · have splits : piece.Splits (Gap.skip position cs).rest := left ▸ Piece.read_splits found
      have placed : text = (before ++ source ++ piece.source) ++ piece.rest := by
        rw [whole, passes.split, ← splits.1]
        simp
      have shorter : piece.rest.length < n := by
        have := splits.rest_lt
        have := Gap.rest_le position cs
        omega
      have stop := passes.stops
      rw [run_comments_next h left found]
      refine .lexemeAt whole here passes splits (ih _ shorter placed ?_ ran rfl)
      simp only [Piece.lexemeAt, Text.size_append]
      omega

end Scan

/--
A scan that succeeds loses no text. Its lexemes are not empty, start and stop between characters and
follow each other up to the end of the text; before, between and after them stand blanks and complete
comments only; and the comments are recorded in the order of the text, each within a gap.
-/
theorem scan_layout {text : String} {lexemes : List Lexeme} (h : (scan text).2 = .ok lexemes) :
    Layout text.toList 0 lexemes (scan text).1 ∧ ∀ l ∈ lexemes,
      String.Pos.Raw.IsValid text ⟨l.position⟩ ∧ String.Pos.Raw.IsValid text ⟨l.stop⟩ ∧
        l.stop ≤ text.utf8ByteSize := by
  have layout : Layout text.toList 0 lexemes (scan text).1 :=
    Scan.run_layout (List.nil_append _).symm rfl (Scan.run_of_scan h)
  refine ⟨layout, fun l mem => ?_⟩
  obtain ⟨_, low, high⟩ := layout.lexeme l mem
  exact ⟨low.isValid, high.isValid, Text.size_toList text ▸ high.le⟩

/-- Comments of both kinds, and a character of two bytes. -/
theorem scan_layout_commented :
    ∃ lexemes, (scan "--a\nselect/*b\n\n c*/'é'--").2 = .ok lexemes ∧
      lexemes.map (fun l => (l.position, l.stop)) = [(4, 10), (19, 23)] ∧
      (scan "--a\nselect/*b\n\n c*/'é'--").1.map (·.text) = ["a", "b", "", "c"] ∧
      Layout "--a\nselect/*b\n\n c*/'é'--".toList 0 lexemes
        (scan "--a\nselect/*b\n\n c*/'é'--").1 := by
  obtain ⟨lexemes, scanned, spans⟩ := Except.toOption_map_eq_some (b := [(4, 10), (19, 23)])
    (r := (scan "--a\nselect/*b\n\n c*/'é'--").2)
    (f := List.map fun l => (l.position, l.stop)) (by decide +kernel)
  exact ⟨lexemes, scanned, spans, by decide +kernel, (scan_layout scanned).1⟩

end SqlQuery
