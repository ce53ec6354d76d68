import SqlQuery.Lexeme
import SqlQuery.Text.Blank

/-!
The gaps between lexemes: blanks, `--` comments to the end of the line and closed `/* */` comments.
A block comment that starts with `/*+` is a hint and no comment.
-/

namespace SqlQuery

/-- A comment off the front of a text, which is `source ++ rest`. -/
structure Comment where
  lines : List String
  source : List Char
  rest : List Char
  deriving DecidableEq, Repr

namespace Comment

/-- A line comment after its dashes. -/
def ofLine (cs : List Char) : Comment :=
  let body := cs.takeWhile (· != '\n')
  let text := Text.trim (String.ofList body)
  ⟨if text.isEmpty then [] else [text], '-' :: '-' :: body, cs.dropWhile (· != '\n')⟩

/-- The body of a block comment and the text after its end. -/
def untilEnd? : List Char → Option (List Char × List Char)
  | [] => none
  | '*' :: '/' :: rest => some ([], rest)
  | c :: cs => (untilEnd? cs).map fun (body, rest) => (c :: body, rest)

def splitLines : List Char → List (List Char)
  | [] => [[]]
  | c :: cs =>
    if c == '\n' then [] :: splitLines cs
    else match splitLines cs with
      | [] => [[c]]
      | line :: lines => (c :: line) :: lines

/-- Trims every line and drops the blank lines at both ends. -/
def bodyLines (body : List Char) : List String :=
  let lines := (splitLines body).map fun line => Text.trim (String.ofList line)
  ((lines.dropWhile String.isEmpty).reverse.dropWhile String.isEmpty).reverse

/-- A block comment after its opening; none if it has no end. -/
def ofBlock? (cs : List Char) : Option Comment :=
  (untilEnd? cs).map fun (body, rest) =>
    ⟨bodyLines body, '/' :: '*' :: body ++ ['*', '/'], rest⟩

/-- A block comment that is no hint starts here. -/
def startsBlock : List Char → Bool
  | '/' :: '*' :: '+' :: _ => false
  | '/' :: '*' :: _ => true
  | _ => false

/-- The comment at the front, if there is one and it is closed. -/
def read? (cs : List Char) : Option Comment :=
  if startsBlock cs then ofBlock? (cs.drop 2)
  else match cs with
    | '-' :: '-' :: rest => some (ofLine rest)
    | _ => none

theorem eq_of_untilEnd? {cs body rest : List Char} (h : untilEnd? cs = some (body, rest)) :
    cs = body ++ '*' :: '/' :: rest := by
  induction cs using untilEnd?.induct generalizing body with
  | case1 => simp [untilEnd?] at h
  | case2 => simp_all [untilEnd?]
  | case3 c cs not_end ih =>
    rw [untilEnd?] at h
    · obtain ⟨⟨b, r⟩, found, eq⟩ := Option.map_eq_some_iff.1 h
      simp only [Prod.mk.injEq] at eq
      obtain ⟨rfl, rfl⟩ := eq
      rw [ih found, List.cons_append]
    · exact not_end

theorem eq_of_startsBlock {cs : List Char} (h : startsBlock cs) :
    cs = '/' :: '*' :: cs.drop 2 := by
  unfold startsBlock at h
  split at h <;> simp_all

/-- Reading a comment loses no text. -/
theorem read?_eq {cs : List Char} {c : Comment} (h : read? cs = some c) :
    cs = c.source ++ c.rest := by
  unfold read? at h
  split at h
  case isTrue block =>
    unfold ofBlock? at h
    obtain ⟨⟨body, rest⟩, found, rfl⟩ := Option.map_eq_some_iff.1 h
    rw [eq_of_startsBlock block, eq_of_untilEnd? found]
    simp
  case isFalse =>
    split at h
    · rw [← Option.some.inj h]
      simp [ofLine]
    · simp at h

theorem read?_source {cs : List Char} {c : Comment} (h : read? cs = some c) :
    2 ≤ c.source.length := by
  unfold read? at h
  split at h
  · unfold ofBlock? at h
    obtain ⟨⟨body, rest⟩, found, rfl⟩ := Option.map_eq_some_iff.1 h
    simp
  · split at h
    · rw [← Option.some.inj h]
      simp [ofLine]
    · simp at h

end Comment

/-- A gap passed over: its comments in order, and where and what the text is after it. -/
structure Gap where
  comments : List Lexeme
  position : Nat
  rest : List Char
  deriving DecidableEq, Repr

/-- Passes over the gap at the front. It stops before a block comment that has no end. -/
def Gap.skip (position : Nat) (cs : List Char) : Gap :=
  match cs with
  | [] => ⟨[], position, []⟩
  | c :: rest =>
    if Text.isBlank c then skip (position + c.utf8Size) rest
    else match found : Comment.read? (c :: rest) with
      | none => ⟨[], position, c :: rest⟩
      | some comment =>
        let stop := position + Text.size comment.source
        let gap := skip stop comment.rest
        let read := comment.lines.map fun line => ⟨⟨.comment, line⟩, position, stop⟩
        ⟨read ++ gap.comments, gap.position, gap.rest⟩
termination_by cs.length
decreasing_by
  · simp
  · have := congrArg List.length (Comment.read?_eq found)
    have := Comment.read?_source found
    simp only [List.length_append] at *
    omega

theorem Gap.rest_le (position : Nat) (cs : List Char) :
    (Gap.skip position cs).rest.length ≤ cs.length := by
  fun_induction Gap.skip position cs with
  | case1 => simp
  | case2 _ _ _ _ ih => exact Nat.le_succ_of_le ih
  | case3 => simp
  | case4 position c rest _ comment found stop gap read ih =>
    have split := congrArg List.length (Comment.read?_eq found)
    simp only [List.length_append] at split
    exact Nat.le_trans ih (by omega)

end SqlQuery
