import SqlQuery.Proofs.Agreement.Session

/-!
A session goes on with the lexemes that are left as a new session reads them: what it has read before
shows in the places it reports and in the levels that are open, and in nothing else.
-/

namespace SqlQuery

/-- The error as it shows after so many lexemes, under another limit. -/
def ParseError.shift (skipped limit : Nat) : ParseError → ParseError
  | .scan error => .scan error
  | .unexpected index position expected found =>
    .unexpected (skipped + index) position expected found
  | .trailing index position found => .trailing (skipped + index) position found
  | .tooDeep _ position => .tooDeep limit position

namespace Session

open Rule

variable {α : Type}

/-- A new session for the lexemes that are left, with the levels that may still be opened. -/
def fresh (s : Session) : Session := start (s.lexemes.drop s.index) s.allowance

/-- What a session comes to, given what a new one comes to on the lexemes that are left. -/
def resume (s : Session) (read : Except ParseError α × Session) : Except ParseError α × Session :=
  (read.1.mapError (.shift s.index s.limit),
    { s with index := s.index + read.2.index, depth := s.depth + read.2.depth })

theorem indexOf_fresh (s : Session) {rest : List Token} (within : s.index ≤ s.lexemes.length)
    (short : rest.length ≤ s.rest.length) : s.indexOf rest = s.index + s.fresh.indexOf rest := by
  simp only [Session.rest, Lexeme.tokens, List.length_map, List.length_drop] at short
  simp only [indexOf, fresh, start, List.length_drop]
  omega

theorem endPosition_fresh (s : Session) (within : s.index < s.lexemes.length) :
    s.endPosition = s.fresh.endPosition := by
  simp only [endPosition, fresh, start, List.getLast?_drop, if_neg (Nat.not_le.2 within)]

theorem positionOf_fresh (s : Session) {rest : List Token} (within : s.index < s.lexemes.length)
    (short : rest.length ≤ s.rest.length) : s.positionOf rest = s.fresh.positionOf rest := by
  rw [positionOf, positionOf, endPosition_fresh s within, indexOf_fresh s (Nat.le_of_lt within) short]
  simp only [fresh, start, List.getElem?_drop]

theorem errorOf_fresh (s : Session) {stop : Stop} (within : s.index < s.lexemes.length)
    (short : stop.rest.length ≤ s.rest.length) :
    s.errorOf stop = (s.fresh.errorOf stop).shift s.index s.limit := by
  have index := indexOf_fresh s (Nat.le_of_lt within) short
  have position := positionOf_fresh s within short
  cases same : stop.cause <;> simp only [errorOf, same, index, position, ParseError.shift]

/-- A rule leaves some of the tokens that were left, so that all it leaves is left to the new session,
too. -/
theorem run_fresh (s : Session) {rule : Rule α} (within : s.index < s.lexemes.length)
    (reached : Reaches rule 0 s.rest) : s.run rule = s.resume (s.fresh.run rule) := by
  have rest : s.fresh.rest = s.rest := rfl
  obtain ⟨o, k, _, ran⟩ := reached
  have short : (s.rest.drop k).length ≤ s.rest.length := by
    rw [List.length_drop]
    exact Nat.sub_le _ _
  have index := indexOf_fresh s (Nat.le_of_lt within) short
  cases o with
  | ok a =>
    simp only [run, rest, ran, Outcome.after, resume, index]
    rfl
  | error e =>
    have error : s.errorOf ⟨e.1, s.rest.drop k, e.2⟩ =
        (s.fresh.errorOf ⟨e.1, s.rest.drop k, e.2⟩).shift s.index s.limit :=
      errorOf_fresh s within short
    simp only [run, rest, ran, Outcome.after, resume, index, error]
    simp only [fresh, start, Nat.zero_add]
    rfl

theorem query_resume (s : Session) (within : s.index < s.lexemes.length) :
    s.query = s.resume s.fresh.query :=
  have reached : Reaches (Grammar.queryAt s.allowance) 0 s.rest :=
    (Grammar.levelAt_agrees False s.allowance).1.query.reaches_left s.rest
  calc s.query
    _ = s.run (Grammar.queryAt s.allowance) := query_eq_run (Nat.le_of_lt within)
    _ = s.resume (s.fresh.run (Grammar.queryAt s.allowance)) := s.run_fresh within reached
    _ = s.resume s.fresh.query := congrArg s.resume (query_start _ _).symm

/-- A query that is read keeps all of the session but its place. -/
theorem query_kept {s : Session} (within : s.Within) {query : Query} (read : s.query.1 = .ok query) :
    s.query.2.lexemes = s.lexemes ∧ s.query.2.allowance = s.allowance := by
  rw [query_eq_run within, run] at *
  split at read
  case h_1 => exact ⟨rfl, rfl⟩
  case h_2 => cases read

/-- A query is read like the first one of a new session on the lexemes that are left, and so is the
next one after it. -/
theorem query_fresh (s : Session) (within : s.index < s.lexemes.length) :
    s.query = s.resume s.fresh.query ∧
      ∀ query, s.query.1 = .ok query → s.query.2.index < s.lexemes.length →
        s.query.2.query =
          s.query.2.resume (start (s.lexemes.drop s.query.2.index) s.allowance).query := by
  constructor
  · exact s.query_resume within
  intro query read left
  obtain ⟨lexemes, allowance⟩ := query_kept (Nat.le_of_lt within) read
  calc s.query.2.query
    _ = s.query.2.resume s.query.2.fresh.query := s.query.2.query_resume (by rwa [lexemes])
    _ = s.query.2.resume (start (s.lexemes.drop s.query.2.index) s.allowance).query := by
      rw [fresh, lexemes, allowance]

/-- `; select 1 select from` after the semicolon, with one level of three open: the query after the
first one fails at `from`. -/
theorem query_fresh_second :
    let s : Session := ⟨[.ofText .operator ";" 0, .ofText .command "select" 2, .ofText .literal "1" 9,
      .ofText .command "select" 11, .ofText .command "from" 18], 1, 1, 3⟩
    s.index < s.lexemes.length ∧ s.query = s.resume s.fresh.query ∧
      s.query.2.query.1 = .error (.unexpected 4 18 "expression" (some "from")) := by
  intro s
  have within : s.index < s.lexemes.length := by decide
  obtain ⟨first, next⟩ := s.query_fresh within
  obtain ⟨query, ran⟩ : ∃ query, s.query = (.ok query, { s with index := 3 }) :=
    ⟨_, query_eq_run (Nat.le_of_lt within)⟩
  have left : s.query.2.index < s.lexemes.length := by
    rw [ran]
    exact (by decide : 3 < 5)
  have second := next _ (congrArg Prod.fst ran) left
  refine ⟨within, first, ?_⟩
  rw [second, ran, query_start]
  rfl

end Session

end SqlQuery
