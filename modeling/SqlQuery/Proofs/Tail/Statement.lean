import SqlQuery.Proofs.Parser.Query
import SqlQuery.Proofs.Agreement.Level
import SqlQuery.Proofs.Reading.Token

/-!
A statement that is read is a query, with a semicolon after it at most.
-/

namespace SqlQuery

open Rule

namespace Grammar

variable {levels : Nat} {ts rest : List Token} {q : Query}

theorem eq_semicolon {t : Token} (h : t.isOperator ";" = true) : t = semicolon := by
  obtain ⟨kind, text⟩ := t
  simp only [Token.isOperator, Bool.and_eq_true, beq_iff_eq] at h
  rw [h.1, h.2, semicolon]

/-- After a statement nothing is left but what may end it. -/
theorem statementAt_eq_ok : statementAt levels ts = .ok (q, rest) ↔
    rest = [] ∧ (queryAt levels ts = .ok (q, []) ∨ queryAt levels ts = .ok (q, [semicolon])) := by
  unfold statementAt
  constructor
  · intro read
    obtain ⟨query, mid, ran, read⟩ := bind_eq_ok.1 read
    obtain ⟨found, mid', eaten, read⟩ := bind_eq_ok.1 read
    cases mid' with
    | cons t mid' => cases read
    | nil =>
      cases read
      rcases eat_eq_ok eaten with ⟨_, rfl⟩ | ⟨_, t, rfl, isEnd⟩
      · exact ⟨rfl, .inl ran⟩
      · exact ⟨rfl, .inr (eq_semicolon isEnd ▸ ran)⟩
  · rintro ⟨rfl, ran | ran⟩
    · exact bind_eq_ok.2 ⟨q, [], ran, rfl⟩
    · exact bind_eq_ok.2 ⟨q, [semicolon], ran, rfl⟩

end Grammar

namespace Session

open Grammar

/-- A statement is a query and a semicolon at most, with as many levels allowed as are enough. -/
theorem statement_query {ls : List Lexeme} {limit n : Nat} {q : Query}
    (read : (start ls limit).statement.1 = .ok q) (le : limit ≤ n) :
    ∃ rest, rest.length ≤ 1 ∧ queryAt n (Lexeme.tokens ls) = .ok (q, rest) := by
  obtain ⟨rest, read⟩ := statement_eq_ok.1 read
  have deeper : Agrees True (queryAt limit) (queryAt n) := (levelAt_deeper le).1.query
  rcases (statementAt_eq_ok.1 read).2 with ran | ran
  · exact ⟨[], Nat.zero_le 1, deeper.eq_ok ran⟩
  · exact ⟨[semicolon], Nat.le_refl 1, deeper.eq_ok ran⟩

end Session

end SqlQuery
