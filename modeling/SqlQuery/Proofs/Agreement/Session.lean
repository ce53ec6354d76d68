import SqlQuery.Proofs.Parser.Query
import SqlQuery.Proofs.Agreement.Level

/-!
What the lexemes further on and the limit of nesting do to the query that a session reads: nothing,
beyond two lexemes ahead and within the limit.
-/

namespace SqlQuery.Session

open Rule

variable {α : Type} {k : Nat}

theorem indexOf_drop (s : Session) (k : Nat) :
    s.indexOf ((Lexeme.tokens s.lexemes).drop k) = min k s.lexemes.length := by
  simp only [indexOf, Lexeme.tokens, List.length_drop, List.length_map]
  omega

theorem tokens_take {L L' : List Lexeme} {n : Nat} (same : L'.take n = L.take n) :
    (Lexeme.tokens L').take n = (Lexeme.tokens L).take n := by
  rw [Lexeme.tokens, Lexeme.tokens, ← List.map_take, ← List.map_take, same]

/-- Lists that are the same up to past the end of one of them are the same. -/
theorem eq_of_take {L L' : List Lexeme} {n : Nat} (short : L.length < n)
    (same : L'.take n = L.take n) : L' = L := by
  have lengths := congrArg List.length same
  simp only [List.length_take] at lengths
  rwa [List.take_of_length_le (by omega), List.take_of_length_le (by omega)] at same

/-- What has been taken ends with the lexemes at the latest. -/
theorem take_of_index {L L' : List Lexeme}
    (same : L'.take (min k L.length + 3) = L.take (min k L.length + 3)) :
    L'.take (k + 3) = L.take (k + 3) := by
  rcases Nat.le_total k L.length with le | le
  · rwa [Nat.min_eq_left le] at same
  · rw [Nat.min_eq_right le] at same
    rw [eq_of_take (by omega) same]

theorem min_length_of_take {L L' : List Lexeme} (same : L'.take (k + 3) = L.take (k + 3)) :
    min k L'.length = min k L.length := by
  have lengths := congrArg List.length same
  simp only [List.length_take] at lengths
  omega

/-- An error shows where it stands and the token that stands there, and no token further on. -/
theorem errorOf_window (s s' : Session) (limit : s'.limit = s.limit)
    (same : s'.lexemes.take (k + 3) = s.lexemes.take (k + 3)) (cause : Cause) (raised : Nat) :
    s'.errorOf ⟨cause, (Lexeme.tokens s'.lexemes).drop k, raised⟩ =
      s.errorOf ⟨cause, (Lexeme.tokens s.lexemes).drop k, raised⟩ := by
  have index := min_length_of_take same
  have found' : found ((Lexeme.tokens s'.lexemes).drop k) = found ((Lexeme.tokens s.lexemes).drop k) := by
    simp only [found, List.head?_drop, getElem?_of_take (Nat.lt_add_of_pos_right (by decide))
      (tokens_take same)]
  have position : s'.positionOf ((Lexeme.tokens s'.lexemes).drop k) =
      s.positionOf ((Lexeme.tokens s.lexemes).drop k) := by
    simp only [positionOf, indexOf_drop, index]
    rcases Nat.lt_or_ge k s.lexemes.length with lt | le
    · rw [Nat.min_eq_left (Nat.le_of_lt lt), getElem?_of_take (by omega) same,
        List.getElem?_eq_getElem lt]
      rfl
    · rw [endPosition, endPosition, eq_of_take (by omega) same]
  cases cause <;> simp only [errorOf, indexOf_drop, index, found', position, limit]

theorem errorOf_withLimit (s : Session) (limit : Nat) {stop : Stop} (within : stop.cause ≠ .tooDeep) :
    (s.withLimit limit).errorOf stop = s.errorOf stop := by
  cases same : stop.cause with
  | expected what => simp only [errorOf, same]; rfl
  | trailing => simp only [errorOf, same]; rfl
  | tooDeep => exact absurd same within

/-- What a session shows of an outcome after so many tokens. -/
def shown (s : Session) (k : Nat) : Outcome α → Except ParseError α
  | .ok a => .ok a
  | .error (cause, raised) => .error (s.errorOf ⟨cause, (Lexeme.tokens s.lexemes).drop k, raised⟩)

theorem run_start {L : List Lexeme} {rule : Rule α} {o : Outcome α}
    (ran : rule (Lexeme.tokens L) = o.after k (Lexeme.tokens L)) (limit : Nat) :
    ((start L limit).run rule).1 = (start L limit).shown k o ∧
      ((start L limit).run rule).2.index = min k L.length := by
  have whole : rule (start L limit).rest = o.after k (Lexeme.tokens L) := ran
  have index := (start L limit).indexOf_drop k
  cases o with
  | ok a =>
    simp only [run, whole, Outcome.after]
    exact ⟨rfl, index⟩
  | error e =>
    simp only [run, whole, Outcome.after]
    exact ⟨rfl, index⟩

theorem shown_window {L L' : List Lexeme} (same : L'.take (k + 3) = L.take (k + 3)) (limit : Nat)
    (o : Outcome α) : (start L' limit).shown k o = (start L limit).shown k o := by
  cases o with
  | ok a => rfl
  | error e =>
    exact congrArg Except.error (errorOf_window (start L limit) (start L' limit) rfl same e.1 e.2)

theorem shown_limit {o : Outcome α} (within : ¬ o.IsCut) (L : List Lexeme) (m m' : Nat) :
    (start L m').shown k o = (start L m).shown k o := by
  cases o with
  | ok a => rfl
  | error e =>
    refine congrArg Except.error (errorOf_withLimit (start L m) m' fun cut => within ⟨e.2, ?_⟩)
    exact congrArg Except.error (Prod.ext cut rfl)

theorem shown_cut {o : Outcome α} (cut : o.IsCut) (s : Session) :
    ∃ position, s.shown k o = .error (.tooDeep s.limit position) := by
  obtain ⟨raised, rfl⟩ := cut
  exact ⟨_, rfl⟩

/-- A query is read without regard to any lexeme past the second one after it, and so is an error
found. -/
theorem query_window {L L' : List Lexeme} {limit : Nat}
    (same : L'.take ((start L limit).query.2.index + 3) =
      L.take ((start L limit).query.2.index + 3)) :
    (start L' limit).query.1 = (start L limit).query.1 ∧
      (start L' limit).query.2.index = (start L limit).query.2.index := by
  obtain ⟨o, k, ran, agrees⟩ :=
    (Grammar.levelAt_agrees False limit).1.query (Lexeme.tokens L) (Lexeme.tokens L')
  simp only [query_start] at same ⊢
  obtain ⟨shown, index⟩ := run_start ran limit
  change ((start L limit).run (Grammar.queryAt limit)).1 = _ at shown
  change ((start L limit).run (Grammar.queryAt limit)).2.index = _ at index
  have window : L'.take (k + 3) = L.take (k + 3) := by
    refine take_of_index ?_
    rw [← index]
    exact same
  have ran' : (Grammar.levelAt limit).query (Lexeme.tokens L') = o.after k (Lexeme.tokens L') := by
    rcases agrees (tokens_take window) with ran' | ⟨more, _⟩
    · exact ran'
    · exact more.elim
  obtain ⟨shown', index'⟩ := run_start ran' limit
  exact ⟨shown'.trans ((shown_window window limit o).trans shown.symm),
    index'.trans ((min_length_of_take window).trans index.symm)⟩

/-- `select from a b` fails at `from`, and so it does with anything after it. -/
theorem query_window_error :
    (start [.ofText .command "select" 0, .ofText .command "from" 7, .ofText .identifier "a" 12,
        .ofText .identifier "b" 14, .ofText .closeParen ")" 16] 2).query.1 =
      .error (.unexpected 1 7 "expression" (some "from")) := by
  let alone : List Lexeme := [.ofText .command "select" 0, .ofText .command "from" 7,
    .ofText .identifier "a" 12, .ofText .identifier "b" 14]
  have read : (start alone 2).query =
      (.error (.unexpected 1 7 "expression" (some "from")), ⟨alone, 1, 0, 2⟩) := query_start alone 2
  have same : (alone ++ [Lexeme.ofText .closeParen ")" 16]).take ((start alone 2).query.2.index + 3) =
      alone.take ((start alone 2).query.2.index + 3) := by
    rw [read]
    rfl
  exact (query_window same).1.trans (by rw [read])

/-- The limit of nesting only cuts off. A statement that is read or refused within it is read or
refused in the same way under every higher limit, and one that meets it is read at least as far. -/
theorem statement_limit (L : List Lexeme) {m m' : Nat} (le : m ≤ m') :
    (∀ query, (start L m).statement.1 = .ok query → (start L m').statement.1 = .ok query ∧
        (start L m').statement.2.index = (start L m).statement.2.index) ∧
      (∀ error, (start L m).statement.1 = .error error →
        (∀ limit position, error ≠ .tooDeep limit position) →
        (start L m').statement.1 = .error error ∧
          (start L m').statement.2.index = (start L m).statement.2.index) ∧
      (∀ limit position, (start L m).statement.1 = .error (.tooDeep limit position) →
        (start L m).statement.2.index ≤ (start L m').statement.2.index) := by
  obtain ⟨o, k, ran, agrees⟩ := Grammar.statementAt_agrees (Grammar.levelAt_deeper le).1.query
    (Lexeme.tokens L) (Lexeme.tokens L)
  obtain ⟨shown, index⟩ := run_start ran m
  simp only [statement_start]
  by_cases cut : o.IsCut
  · obtain ⟨position, met⟩ := shown_cut (k := k) cut (start L m)
    have reached : Reaches (Grammar.statementAt m') k (Lexeme.tokens L) := by
      rcases agrees rfl with ran' | ⟨_, _, reached⟩
      · exact ⟨o, k, Nat.le_refl k, ran'⟩
      · exact reached
    obtain ⟨o', k', further, ran'⟩ := reached
    obtain ⟨_, index'⟩ := run_start ran' m'
    rw [shown, met]
    refine ⟨fun query read => ?_, fun error refused within => ?_, fun _ _ _ => by omega⟩
    · cases read
    · cases refused
      exact absurd rfl (within _ _)
  · have ran' : Grammar.statementAt m' (Lexeme.tokens L) = o.after k (Lexeme.tokens L) := by
      rcases agrees rfl with ran' | ⟨_, met, _⟩
      · exact ran'
      · exact absurd met cut
    obtain ⟨shown', index'⟩ := run_start ran' m'
    have result : ((start L m').run (Grammar.statementAt m')).1 =
        ((start L m).run (Grammar.statementAt m)).1 :=
      shown'.trans ((shown_limit cut L m m').trans shown.symm)
    have place : ((start L m').run (Grammar.statementAt m')).2.index =
        ((start L m).run (Grammar.statementAt m)).2.index :=
      index'.trans index.symm
    rw [result]
    exact ⟨fun query read => ⟨read, place⟩, fun error refused _ => ⟨refused, place⟩,
      fun _ _ _ => Nat.le_of_eq place.symm⟩

/-- `select ( 1 )` nests too deep for two levels at the number, and four are enough for it. -/
theorem statement_limit_met :
    (start [.ofText .command "select" 0, .ofText .openParen "(" 7, .ofText .literal "1" 9,
        .ofText .closeParen ")" 11] 2).statement.1 = .error (.tooDeep 2 9) ∧
      (start [.ofText .command "select" 0, .ofText .openParen "(" 7, .ofText .literal "1" 9,
        .ofText .closeParen ")" 11] 2).statement.2.index ≤
      (start [.ofText .command "select" 0, .ofText .openParen "(" 7, .ofText .literal "1" 9,
        .ofText .closeParen ")" 11] 4).statement.2.index := by
  have le : 2 ≤ 4 := by decide
  have cut : (start [.ofText .command "select" 0, .ofText .openParen "(" 7, .ofText .literal "1" 9,
      .ofText .closeParen ")" 11] 2).statement.1 = .error (.tooDeep 2 9) := by
    rw [statement_start]
    rfl
  exact ⟨cut, (statement_limit _ le).2.2 2 9 cut⟩

end SqlQuery.Session
