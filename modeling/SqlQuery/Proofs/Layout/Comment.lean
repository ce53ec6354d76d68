import Mathlib.Data.List.Basic
import SqlQuery.Lexeme.Comment

/-!
The text of a comment: its lines stand in its body one after the other. Trimming a line and leaving
out the blank lines at both ends moves none of them.
-/

namespace SqlQuery

/-- The words stand in the text one after the other. -/
inductive Occur : List (List Char) → List Char → Prop
  | nil (cs : List Char) : Occur [] cs
  | cons {ws : List (List Char)} {after : List Char} (before w : List Char) (later : Occur ws after) :
      Occur (w :: ws) (before ++ (w ++ after))

namespace Occur

variable {ws vs : List (List Char)} {cs : List Char}

theorem prepend (h : Occur ws cs) (front : List Char) : Occur ws (front ++ cs) := by
  cases h with
  | nil => exact .nil _
  | cons before w later =>
    rw [← List.append_assoc]
    exact .cons (front ++ before) w later

theorem append (h : Occur ws cs) (back : List Char) : Occur ws (cs ++ back) := by
  induction h with
  | nil => exact .nil _
  | cons before w _ ih =>
    rw [List.append_assoc, List.append_assoc]
    exact .cons before w ih

theorem sublist (fewer : vs.Sublist ws) (h : Occur ws cs) : Occur vs cs := by
  induction fewer generalizing cs with
  | slnil => exact .nil _
  | cons w _ ih =>
    cases h with
    | cons before w later => exact ((ih later).prepend w).prepend before
  | cons_cons w _ ih =>
    cases h with
    | cons before w later => exact .cons before w (ih later)

/-- A part of each word stands where the word does. -/
theorem map {f : List Char → List Char} (part : ∀ w, f w <:+: w) (h : Occur ws cs) :
    Occur (ws.map f) cs := by
  induction h with
  | nil => exact .nil _
  | @cons ws after before w _ ih =>
    obtain ⟨front, back, same⟩ := part w
    have split : before ++ (w ++ after) = (before ++ front) ++ (f w ++ (back ++ after)) := calc
      _ = before ++ (front ++ f w ++ back ++ after) := by rw [same]
      _ = _ := by simp
    rw [split]
    exact .cons _ _ (ih.prepend back)

end Occur

namespace Comment

/-- The first line is at the front, and the others come after it. -/
theorem splitLines_eq (body : List Char) : ∃ line lines rest,
    splitLines body = line :: lines ∧ body = line ++ rest ∧ Occur lines rest := by
  induction body with
  | nil => exact ⟨[], [], [], rfl, rfl, .nil _⟩
  | cons c cs ih =>
    obtain ⟨line, lines, rest, split, rfl, later⟩ := ih
    unfold splitLines
    rw [split]
    by_cases newline : (c == '\n') = true
    · exact ⟨[], line :: lines, c :: (line ++ rest), by simp [newline], rfl, .cons [c] line later⟩
    · exact ⟨c :: line, lines, rest, by simp [newline], rfl, later⟩

theorem trimChars_infix (cs : List Char) : Text.trimChars cs <:+: cs := by
  unfold Text.trimChars
  refine List.IsInfix.trans ?_ (List.dropWhile_suffix Text.isWhiteSpace).isInfix
  rw [← List.reverse_infix, List.reverse_reverse]
  exact (List.dropWhile_suffix Text.isWhiteSpace).isInfix

theorem toList_trim (cs : List Char) :
    (Text.trim (String.ofList cs)).toList = Text.trimChars cs := by
  simp [Text.trim]

/-- The lines recorded of a block comment stand in its body in order. -/
theorem occur_bodyLines (body : List Char) :
    Occur ((bodyLines body).map String.toList) body := by
  obtain ⟨line, lines, rest, split, rfl, later⟩ := splitLines_eq body
  have all : Occur (splitLines (line ++ rest)) (line ++ rest) := by
    rw [split]
    exact .cons [] line later
  have trimmed := all.map trimChars_infix
  have same : (splitLines (line ++ rest)).map Text.trimChars =
      ((splitLines (line ++ rest)).map fun line => Text.trim (String.ofList line)).map
        String.toList := by
    simp [toList_trim]
  rw [same] at trimmed
  refine trimmed.sublist (List.Sublist.map _ ?_)
  unfold bodyLines
  refine List.Sublist.trans ?_ (List.dropWhile_sublist String.isEmpty)
  rw [← List.reverse_sublist, List.reverse_reverse]
  exact List.dropWhile_sublist String.isEmpty

theorem occur_ofLine (cs : List Char) :
    Occur ((ofLine cs).lines.map String.toList) (ofLine cs).source := by
  have source : (ofLine cs).source = ['-', '-'] ++ cs.takeWhile (· != '\n') := rfl
  have trimmed := trimChars_infix (cs.takeWhile (· != '\n'))
  rw [source]
  refine Occur.prepend ?_ _
  unfold ofLine
  dsimp only
  by_cases empty : (Text.trim (String.ofList (cs.takeWhile (· != '\n')))).isEmpty = true
  · rw [if_pos empty, List.map_nil]
    exact .nil _
  · obtain ⟨before, after, same⟩ := trimmed
    rw [if_neg empty, List.map_singleton, toList_trim]
    have occurs := Occur.cons before (Text.trimChars (cs.takeWhile (· != '\n'))) (.nil after)
    rwa [← List.append_assoc, same] at occurs

/-- The lines recorded of a comment stand in its text in order. -/
theorem occur_lines {cs : List Char} {comment : Comment} (h : read? cs = some comment) :
    Occur (comment.lines.map String.toList) comment.source := by
  unfold read? at h
  split at h
  case isTrue =>
    unfold ofBlock? at h
    obtain ⟨⟨body, rest⟩, _, rfl⟩ := Option.map_eq_some_iff.1 h
    exact ((occur_bodyLines body).append _).prepend ['/', '*']
  case isFalse =>
    split at h
    case h_2 => cases h
    case h_1 =>
      obtain rfl := Option.some.inj h
      exact occur_ofLine _

end Comment

end SqlQuery
