import Mathlib.Data.List.TakeWhile
import SqlQuery.Proofs.Layout.Comment

/-!
Gaps: what is passed over between lexemes is blanks and complete comments, and what is recorded of
the comments stands there in order.
-/

namespace SqlQuery

open Text (size)

/-- Blanks and complete comments, in front of the rest of the text. -/
inductive IsGap (rest : List Char) : List Char → Prop
  | nil : IsGap rest []
  | blank {c : Char} {cs : List Char} (isBlank : Text.isBlank c = true) (later : IsGap rest cs) :
      IsGap rest (c :: cs)
  | line {body cs : List Char} (oneLine : '\n' ∉ body) (ends : ∀ c ∈ (cs ++ rest).head?, c = '\n')
      (later : IsGap rest cs) : IsGap rest ('-' :: '-' :: (body ++ cs))
  | block {body cs : List Char} (noHint : body.head? ≠ some '+')
      (ends : ¬ ['*', '/'] <:+: body ++ ['*']) (later : IsGap rest cs) :
      IsGap rest ('/' :: '*' :: (body ++ '*' :: '/' :: cs))

namespace Comment

/-- A block comment ends at the first mark that can end it. -/
theorem untilEnd?_first {cs body rest : List Char} (h : untilEnd? cs = some (body, rest)) :
    ¬ ['*', '/'] <:+: body ++ ['*'] := by
  induction cs using untilEnd?.induct generalizing body with
  | case1 => simp [untilEnd?] at h
  | case2 =>
    simp only [untilEnd?, Option.some.injEq, Prod.mk.injEq] at h
    rw [← h.1]
    decide
  | case3 c cs notEnd ih =>
    rw [untilEnd?] at h
    · obtain ⟨⟨inner, tail⟩, found, same⟩ := Option.map_eq_some_iff.1 h
      simp only [Prod.mk.injEq] at same
      obtain ⟨rfl, rfl⟩ := same
      rw [List.cons_append, List.infix_cons_iff]
      rintro (front | later)
      · have text := eq_of_untilEnd? found
        rw [List.cons_prefix_cons] at front
        obtain ⟨rfl, next⟩ := front
        cases inner with
        | nil => simp at next
        | cons d inner =>
          obtain rfl : '/' = d := by simpa using next
          exact notEnd _ rfl text
      · exact ih found later
    · exact notEnd

/-- A comment that is read is complete. -/
theorem gap_of_read? {cs gap rest : List Char} {comment : Comment} (h : read? cs = some comment)
    (split : comment.rest = gap ++ rest) (later : IsGap rest gap) :
    IsGap rest (comment.source ++ gap) := by
  unfold read? at h
  split at h
  case isTrue block =>
    unfold ofBlock? at h
    obtain ⟨⟨body, tail⟩, found, rfl⟩ := Option.map_eq_some_iff.1 h
    have text := eq_of_untilEnd? found
    have noHint : body.head? ≠ some '+' := by
      intro hint
      obtain ⟨body, rfl⟩ := List.head?_eq_some_iff.1 hint
      rw [eq_of_startsBlock block, text] at block
      simp [startsBlock] at block
    have isGap := IsGap.block noHint (untilEnd?_first found) later
    simpa using isGap
  case isFalse =>
    split at h
    case h_2 => cases h
    case h_1 _ text _ =>
      obtain rfl := Option.some.inj h
      refine .line (fun newline => ?_) (fun c head => ?_) later
      · simpa using List.mem_takeWhile_imp newline
      · rw [← split] at head
        have ended := List.head?_dropWhile_not (· != '\n') text
        rw [show text.dropWhile (· != '\n') = (ofLine text).rest from rfl, head] at ended
        simpa using ended

end Comment

/-- The word stands in the text at the position. -/
def OccursAt (text : List Char) (position : Nat) (word : List Char) : Prop :=
  ∃ before after, text = before ++ (word ++ after) ∧ size before = position

/-- The texts of the comments stand in the text one after the other, each of them in its span. -/
inductive Recorded (text : List Char) : Nat → List Lexeme → Nat → Prop
  | nil {start stop : Nat} (le : start ≤ stop) : Recorded text start [] stop
  | cons {start stop : Nat} {c : Lexeme} {cs : List Lexeme} (place : Nat) (after : start ≤ place)
      (low : c.position ≤ place) (high : place + size c.text.toList ≤ c.stop)
      (occurs : OccursAt text place c.text.toList)
      (later : Recorded text (place + size c.text.toList) cs stop) :
      Recorded text start (c :: cs) stop

namespace Recorded

variable {text : List Char} {start middle stop : Nat} {cs ds : List Lexeme}

theorem weaken (h : Recorded text middle cs stop) (le : start ≤ middle) :
    Recorded text start cs stop := by
  cases h with
  | nil le' => exact .nil (le.trans le')
  | cons place after low high occurs later =>
    exact .cons place (le.trans after) low high occurs later

theorem append (first : Recorded text start cs middle) (next : Recorded text middle ds stop) :
    Recorded text start (cs ++ ds) stop := by
  induction first with
  | nil le => exact next.weaken le
  | cons place after low high occurs _ ih => exact .cons place after low high occurs (ih next)

theorem of_occur {before cs after : List Char} (whole : text = before ++ (cs ++ after))
    {lines : List String} (h : Occur (lines.map String.toList) cs) {low high : Nat}
    (starts : low ≤ size before) (stops : size before + size cs ≤ high) :
    Recorded text (size before) (lines.map fun line => ⟨⟨.comment, line⟩, low, high⟩)
      (size before + size cs) := by
  induction lines generalizing before cs with
  | nil => exact .nil (Nat.le_add_right ..)
  | cons line lines ih =>
    rw [List.map_cons] at h ⊢
    cases h with
    | @cons _ rest front _ later =>
      simp only [Text.size_append] at stops ⊢
      have whole' : text = (before ++ (front ++ line.toList)) ++ (rest ++ after) := by
        simp [whole]
      have placed : text = (before ++ front) ++ (line.toList ++ (rest ++ after)) := by
        simp [whole]
      have ended := ih whole' later (by simp; omega) (by simp; omega)
      refine .cons (size before + size front) (by omega) (by simp; omega) (by simp; omega)
        ⟨_, _, placed, by simp⟩ ?_
      simpa [Nat.add_assoc] using ended

end Recorded

/-- The gap passed over from a position on is `source`, and what it records stands in it. -/
structure Gap.Passes (text : List Char) (position : Nat) (cs source : List Char) (gap : Gap) :
    Prop where
  split : cs = source ++ gap.rest
  stops : gap.position = position + size source
  isGap : IsGap gap.rest source
  within : ∀ c ∈ gap.comments, position ≤ c.position ∧ c.stop ≤ gap.position
  recorded : Recorded text position gap.comments gap.position

namespace Gap

variable {text before cs : List Char} {position : Nat}

theorem Passes.here : Passes text position cs [] ⟨[], position, cs⟩ :=
  ⟨rfl, rfl, .nil, nofun, .nil (Nat.le_refl _)⟩

theorem skip_passes (whole : text = before ++ cs) (here : position = size before) :
    ∃ source, Passes text position cs source (skip position cs) := by
  fun_induction skip position cs generalizing before with
  | case1 position => exact ⟨[], .here⟩
  | case2 position c rest isBlank ih =>
    have whole' : text = (before ++ [c]) ++ rest := by simp [whole]
    obtain ⟨source, h⟩ := ih whole' (by simp [here])
    have stops := h.stops
    refine ⟨c :: source, congrArg (c :: ·) h.split, by simp [stops, Nat.add_assoc],
      .blank isBlank h.isGap, fun d mem => ?_, h.recorded.weaken (by omega)⟩
    have := h.within d mem
    omega
  | case3 position c rest => exact ⟨[], .here⟩
  | case4 =>
    rename_i position c rest _ comment found stop later lines ih
    have front := Comment.read?_eq found
    rw [front] at whole ⊢
    have whole' : text = (before ++ comment.source) ++ comment.rest := by simp [whole]
    obtain ⟨source, h⟩ := ih whole' (by simp [stop, here])
    have stops := h.stops
    have own : Recorded text position lines stop := by
      have occurs := Recorded.of_occur whole (Comment.occur_lines found)
        (Nat.le_refl (size before)) (Nat.le_refl _)
      rwa [← here] at occurs
    refine ⟨comment.source ++ source, ?_, ?_, Comment.gap_of_read? found h.split h.isGap,
      fun d mem => ?_, own.append h.recorded⟩
    · rw [List.append_assoc, ← h.split]
    · simp [later, stops, stop, Nat.add_assoc]
    · rcases List.mem_append.1 mem with mem | mem
      · obtain ⟨line, _, rfl⟩ := List.mem_map.1 mem
        exact ⟨Nat.le_refl _, by simp only [later]; omega⟩
      · have := h.within d mem
        exact ⟨by omega, this.2⟩

end Gap

end SqlQuery
