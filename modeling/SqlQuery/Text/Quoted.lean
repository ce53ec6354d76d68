/-!
Doubling of the marks that would end a quoted text.
-/

namespace SqlQuery.Text

/-- Writes the character twice and every other one once. -/
def doubled (mark : Char) (cs : List Char) : List Char :=
  cs.flatMap fun c => if c == mark then [c, c] else [c]

@[simp] theorem doubled_nil (mark : Char) : doubled mark [] = [] := rfl

theorem doubled_cons_self (mark : Char) (cs : List Char) :
    doubled mark (mark :: cs) = mark :: mark :: doubled mark cs := by
  simp [doubled]

theorem doubled_cons_of_ne {mark c : Char} (h : c ≠ mark) (cs : List Char) :
    doubled mark (c :: cs) = c :: doubled mark cs := by
  simp [doubled, h]

/-- Writes every occurrence of the mark twice, taking occurrences from the left. -/
def doubledMark (mark : List Char) (cs : List Char) : List Char :=
  match cs with
  | [] => []
  | c :: rest =>
    if mark ≠ [] ∧ mark.isPrefixOf (c :: rest) then
      mark ++ mark ++ doubledMark mark ((c :: rest).drop mark.length)
    else c :: doubledMark mark rest
termination_by cs.length
decreasing_by
  · rename_i found
    have := List.length_pos_iff.2 found.1
    simp only [List.length_drop, List.length_cons]
    omega
  · simp

end SqlQuery.Text
