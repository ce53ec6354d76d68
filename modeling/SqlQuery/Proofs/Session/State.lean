import SqlQuery.Proofs.Agreement.Level
import SqlQuery.Proofs.Layout.Text
import SqlQuery.Proofs.Rule.Opening
import SqlQuery.Proofs.Parser.Query

/-!
What holds of a session whatever has been asked of it: it stands within its lexemes and only moves
forward, levels stay open only after a failure, and an error tells the place that the session is at.
-/

namespace SqlQuery

namespace Session

/-- What may be asked of a session. -/
inductive Call where
  | query
  | statement
  | withLimit (limit : Nat)

/-- The session after the call. -/
def call (s : Session) : Call → Session
  | .query => s.query.2
  | .statement => s.statement.2
  | .withLimit limit => s.withLimit limit

/-- What the call gives, if it reads anything. -/
def answer (s : Session) : Call → Option (Except ParseError Query)
  | .query => some s.query.1
  | .statement => some s.statement.1
  | .withLimit _ => none

/-- The session after one call after another. -/
def after (s : Session) (calls : List Call) : Session := calls.foldl call s

end Session

/-- The error tells the place that the session is at and the lexeme that is found there. What is
trailing is always a lexeme. -/
def ParseError.Describes (s : Session) : ParseError → Prop
  | .scan _ => False
  | .unexpected index position _ found =>
    index = s.index ∧ found = s.next?.map (·.text) ∧ position = s.place
  | .trailing index position found =>
    index = s.index ∧ ∃ l, s.next? = some l ∧ found = l.text ∧ position = l.position
  | .tooDeep limit position => limit = s.limit ∧ position = s.place

theorem ParseError.Describes.position {s : Session} {error : ParseError} (h : error.Describes s) :
    error.position = s.place := by
  cases error with
  | scan error => exact h.elim
  | unexpected index position expected found => exact h.2.2
  | trailing index position found =>
    obtain ⟨_, l, next, _, place⟩ := h
    rw [ParseError.position, place, Session.place, next]
    rfl
  | tooDeep limit position => exact h.2

namespace Session

open Rule

/-- How a session moves that reads on: `answer` is what it reads, and `s'` is the session after it. -/
structure Advances {α : Type} (s s' : Session) (answer : Except ParseError α) : Prop where
  lexemes : s'.lexemes = s.lexemes
  forward : s.index ≤ s'.index
  within : s'.index ≤ s.lexemes.length
  closed : ∀ a, answer = .ok a → s'.depth = s.depth
  raised : ∀ error, answer = .error error →
    s.depth ≤ s'.depth ∧ s'.depth ≤ max s.depth s.limit + 1
  described : ∀ error, answer = .error error → error.Describes s'

theorem indexOf_tokens {s : Session} {i : Nat} (within : i ≤ s.lexemes.length) :
    s.indexOf (Lexeme.tokens (s.lexemes.drop i)) = i := by
  simp only [indexOf, Lexeme.tokens, List.length_map, List.length_drop]
  omega

theorem found_tokens (L : List Lexeme) (i : Nat) :
    found (Lexeme.tokens (L.drop i)) = L[i]?.map (·.text) := by
  rw [found, Lexeme.tokens, List.head?_map, List.head?_drop, Option.map_map]
  rfl

/-- What a rule leaves are the tokens from a place on. -/
theorem exists_drop_rest {s : Session} (within : s.index ≤ s.lexemes.length) (k : Nat) :
    ∃ i, s.index ≤ i ∧ i ≤ s.lexemes.length ∧
      s.rest.drop k = Lexeme.tokens (s.lexemes.drop i) := by
  have drop : s.rest.drop k = Lexeme.tokens (s.lexemes.drop (s.index + k)) := by
    rw [Session.rest, Lexeme.tokens, Lexeme.tokens, ← List.map_drop, List.drop_drop]
  rcases Nat.le_total (s.index + k) s.lexemes.length with le | le
  · exact ⟨s.index + k, Nat.le_add_right _ _, le, drop⟩
  · refine ⟨s.lexemes.length, within, Nat.le_refl _, ?_⟩
    rw [drop, List.drop_of_length_le le, List.drop_length]

/-- An error that is built deep within a rule tells what the session is at after it. -/
theorem errorOf_describes {s s' : Session} {stop : Stop} {i : Nat} (lexemes : s'.lexemes = s.lexemes)
    (limit : s'.limit = s.limit) (index : s'.index = i) (within : i ≤ s.lexemes.length)
    (left : stop.rest = Lexeme.tokens (s.lexemes.drop i))
    (more : stop.cause = .trailing → stop.rest ≠ []) : (s.errorOf stop).Describes s' := by
  have place : s.positionOf stop.rest = s'.place := by
    rw [positionOf, left, indexOf_tokens within, Session.place, next?, endPosition, endPosition,
      lexemes, index]
  have found : found stop.rest = s'.next?.map (·.text) := by
    rw [left, found_tokens, next?, lexemes, index]
  have here : s.indexOf stop.rest = s'.index := by rw [left, indexOf_tokens within, index]
  cases same : stop.cause with
  | expected what =>
    simp only [errorOf, same]
    exact ⟨here, found, place⟩
  | trailing =>
    simp only [errorOf, same]
    refine ⟨here, ?_⟩
    obtain ⟨t, ts, head⟩ := List.exists_cons_of_ne_nil (more same)
    cases next : s'.next? with
    | none =>
      rw [next, head] at found
      cases found
    | some l => exact ⟨l, rfl, by rw [found, next]; rfl, by rw [place, Session.place, next]; rfl⟩
  | tooDeep =>
    simp only [errorOf, same]
    exact ⟨limit.symm, place⟩

theorem run_advances {s : Session} {α : Type} {rule : Rule α} (within : s.index ≤ s.lexemes.length)
    (reached : Reaches rule 0 s.rest)
    (failed : ∀ stop, rule s.rest = .error stop →
      stop.raised ≤ s.allowance + 1 ∧ (stop.cause = .trailing → stop.rest ≠ [])) :
    s.Advances (s.run rule).2 (s.run rule).1 := by
  obtain ⟨o, k, _, ran⟩ := reached
  obtain ⟨i, forward, inside, left⟩ := exists_drop_rest within k
  have index : s.indexOf (s.rest.drop k) = i := by rw [left, indexOf_tokens inside]
  cases o with
  | ok a =>
    simp only [run, ran, Outcome.after, index]
    refine ⟨rfl, forward, inside, fun _ _ => rfl, fun _ same => ?_, fun _ same => ?_⟩
    · cases same
    · cases same
  | error e =>
    obtain ⟨few, more⟩ := failed _ ran
    simp only [run, ran, Outcome.after, index]
    refine ⟨rfl, forward, inside, fun _ same => ?_, fun error _ => ?_, fun error same => ?_⟩
    · cases same
    · simp only [allowance] at few
      dsimp only
      omega
    · cases same
      exact errorOf_describes rfl rfl rfl inside left more

theorem query_advances {s : Session} (within : s.index ≤ s.lexemes.length) :
    s.Advances s.query.2 s.query.1 := by
  have opens := (Grammar.levelAt_opens s.allowance).1.query.1
  rw [query_eq_run within]
  refine run_advances within ?_ fun stop ran => ?_
  · exact (Grammar.levelAt_agrees False s.allowance).1.query.reaches_left s.rest
  · obtain ⟨few, cause⟩ := opens.failed s.rest stop ran
    exact ⟨few, fun trailing => absurd trailing cause⟩

theorem statement_advances {s : Session} (within : s.index ≤ s.lexemes.length) :
    s.Advances s.statement.2 s.statement.1 := by
  rw [statement_eq_run within]
  refine run_advances within ?_ fun stop ran => Grammar.statementAt_stop ran
  exact (Grammar.statementAt_agrees
    (Grammar.levelAt_agrees False s.allowance).1.query).reaches_left s.rest

/-- Whatever is asked of a session within its lexemes, it stays within them. -/
theorem call_within {s : Session} (within : s.index ≤ s.lexemes.length) (call : Call) :
    (s.call call).lexemes = s.lexemes ∧ s.index ≤ (s.call call).index ∧
      (s.call call).index ≤ s.lexemes.length := by
  cases call with
  | query =>
    have advances := query_advances within
    exact ⟨advances.lexemes, advances.forward, advances.within⟩
  | statement =>
    have advances := statement_advances within
    exact ⟨advances.lexemes, advances.forward, advances.within⟩
  | withLimit limit => exact ⟨rfl, Nat.le_refl _, within⟩

theorem answer_advances {s : Session} (within : s.index ≤ s.lexemes.length) {call : Call}
    {answer : Except ParseError Query} (same : s.answer call = some answer) :
    s.Advances (s.call call) answer := by
  cases call with
  | query =>
    cases same
    exact query_advances within
  | statement =>
    cases same
    exact statement_advances within
  | withLimit limit => cases same

theorem after_within {s : Session} (within : s.index ≤ s.lexemes.length) (calls : List Call) :
    (s.after calls).lexemes = s.lexemes ∧ (s.after calls).index ≤ s.lexemes.length := by
  induction calls generalizing s with
  | nil => exact ⟨rfl, within⟩
  | cons call calls ih =>
    obtain ⟨lexemes, _, within'⟩ := call_within within call
    rw [← lexemes]
    exact ih (by rwa [lexemes])

/-- A lexeme of a text starts between characters, and the last one stops there. -/
theorem place_isBoundary {s : Session} {text : String} (scanned : (scan text).2 = .ok s.lexemes) :
    IsBoundary text.toList s.place := by
  have layout : Layout text.toList 0 s.lexemes (scan text).1 :=
    Scan.run_layout (List.nil_append _).symm rfl (Scan.run_of_scan scanned)
  cases next : s.next? with
  | some l =>
    rw [place, next]
    exact (layout.lexeme l (List.mem_of_getElem? next)).2.1
  | none =>
    rw [place, next]
    change IsBoundary text.toList s.endPosition
    rw [endPosition]
    cases last : s.lexemes.getLast? with
    | none => exact ⟨[], text.toList, rfl, rfl⟩
    | some l => exact (layout.lexeme l (List.mem_of_getLast? last)).2.2

/-- Whatever has been asked of a session before, the next call keeps its state in order: the session
moves forward within its lexemes; what is read leaves as many levels open as there were, and a failure
one more than may be open at most; the error tells the place that the session is at, which in a
scanned text is between characters; and a level is closed only where one is open, so that it does not
matter what closing does to a counter at zero. -/
theorem calls_keep (L : List Lexeme) (limit : Nat) (calls : List Call) (call : Call) :
    let s := (start L limit).after calls
    let s' := s.call call
    s.lexemes = L ∧ s'.lexemes = L ∧ s.index ≤ s'.index ∧ s'.index ≤ L.length ∧
      (∀ query, s.answer call = some (.ok query) → s'.depth = s.depth) ∧
      (∀ error, s.answer call = some (.error error) →
        s.depth ≤ s'.depth ∧ s'.depth ≤ max s.depth s.limit + 1 ∧ error.Describes s' ∧
          ∀ text, (scan text).2 = .ok L →
            IsBoundary text.toList error.position ∧ error.position ≤ text.utf8ByteSize) ∧
      ∀ leave, Parser.ClosesOpen leave → ∀ fuel, s.allowance < fuel →
        (Parser.callsWithin leave fuel).query s = s.query ∧
          Parser.statement (Parser.callsWithin leave fuel) s = s.statement := by
  intro s s'
  obtain ⟨lexemes, inside⟩ : s.lexemes = L ∧ s.index ≤ L.length :=
    after_within (s := start L limit) (Nat.zero_le _) calls
  have within : s.index ≤ s.lexemes.length := lexemes ▸ inside
  obtain ⟨lexemes', forward, inside'⟩ := call_within within call
  refine ⟨lexemes, lexemes'.trans lexemes, forward, lexemes ▸ inside', ?_, ?_, ?_⟩
  · intro query read
    exact (answer_advances within read).closed query rfl
  · intro error refused
    have advances := answer_advances within refused
    obtain ⟨low, high⟩ := advances.raised error rfl
    have described := advances.described error rfl
    refine ⟨low, high, described, ?_⟩
    intro text scanned
    have boundary : IsBoundary text.toList error.position := by
      rw [described.position]
      apply place_isBoundary
      rw [scanned, lexemes'.trans lexemes]
    exact ⟨boundary, Text.size_toList text ▸ boundary.le⟩
  · intro leave leaves fuel enough
    constructor
    · rw [queryWithin_eq leaves within enough, query_eq_run within]
    · rw [statementWithin_eq leaves within enough, statement_eq_run within]

/-- `select ('é'` misses a closing parenthesis and leaves a level open. What is asked next stands at the
end of the text, 12 bytes from its start. -/
theorem calls_keep_unclosed :
    ∃ L, (scan "select ('é'").2 = .ok L ∧
      ((start L 5).after [.query]).depth = 1 ∧
      ((start L 5).after [.query]).answer .statement =
        some (.error (.unexpected 3 12 "`select`" none)) ∧
      IsBoundary "select ('é'".toList 12 := by
  let L : List Lexeme := [.ofText .command "select" 0, .ofText .openParen "(" 7,
    .ofText .literal "'é'" 8]
  have scanned : (scan "select ('é'").2 = .ok L := by decide +kernel
  have state : (start L 5).after [.query] = ⟨L, 3, 1, 5⟩ := congrArg Prod.snd (query_start L 5)
  have refused : ((start L 5).after [.query]).answer .statement =
      some (.error (.unexpected 3 12 "`select`" none)) := by
    have within : (⟨L, 3, 1, 5⟩ : Session).Within := Nat.le_refl 3
    rw [state, answer, statement_eq_run within]
    rfl
  obtain ⟨_, _, _, _, _, failed, _⟩ := calls_keep L 5 [.query] .statement
  exact ⟨L, scanned, by rw [state], refused, ((failed _ refused).2.2.2 _ scanned).1⟩

end Session

end SqlQuery
