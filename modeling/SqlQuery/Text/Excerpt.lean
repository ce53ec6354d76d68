import SqlQuery.Text.Class

/-!
Excerpts of the text around a position, for error messages.
-/

namespace SqlQuery.Text

/--
Splits after `n` bytes, or at the end of a shorter text. There is no such split inside a character.
-/
def splitBytes? : Nat → List Char → Option (List Char × List Char)
  | 0, cs => some ([], cs)
  | _ + 1, [] => some ([], [])
  | n + 1, c :: cs =>
    if c.utf8Size ≤ n + 1 then
      (splitBytes? (n + 1 - c.utf8Size) cs).map fun (before, after) => (c :: before, after)
    else none

/-- How many characters an excerpt shows on each side of its position. -/
def excerptWidth : Nat := 5

/-- The characters next to the position, and below them a caret under the first one after it. -/
def excerpt (before after : List Char) : String :=
  let shown := before.drop (before.length - excerptWidth)
  let caret := List.replicate shown.length ' ' ++ ['^']
  String.ofList (shown ++ after.take excerptWidth ++ '\n' :: caret)

/-- The excerpt at a byte position; none if the position lies inside a character. -/
def excerptAt? (text : String) (position : Nat) : Option String :=
  (splitBytes? position text.toList).map fun (before, after) => excerpt before after

end SqlQuery.Text
