import SqlQuery.Proofs.Reading.Expression
import SqlQuery.Proofs.Tail.Query
import SqlQuery.Proofs.Tail.Statement

/-!
A semicolon after a statement changes nothing: no rule tells it from the end of the tokens.
-/

namespace SqlQuery

open Rule

/-- The end of the tokens, and semicolons in its place. -/
def Tails.ends (n : Nat) : Tails where
  left := []
  right := List.replicate n semicolon
  left_head := nofun
  right_head := by
    intro t head
    have mem := List.mem_replicate.1 (List.mem_of_mem_head? head)
    exact mem.2 ▸ List.mem_cons_self
  look := by
    intro i _ p silent
    rw [List.getElem?_replicate]
    split
    · exact silent.symm
    · rfl
  strict := True
  site _ _ := False

namespace Grammar

variable {levels n : Nat} {ts rest : List Token} {q : Query}

theorem suffix_ends (scope : Scope) (floor : Nat) :
    (Tails.ends n).SwapsAt (Found (Tails.Suffixes (.ends n))) (suffix scope floor) [] := by
  have left : suffix scope floor [] = .ok (none, []) := suffix_stops nofun
  have right : suffix scope floor (List.replicate n semicolon) =
      .ok (none, List.replicate n semicolon) := by
    refine suffix_stops fun t head power found => ?_
    rw [(List.mem_replicate.1 (List.mem_of_mem_head? head)).2] at found
    cases found
  unfold Tails.SwapsAt
  simp only [Tails.ends, List.nil_append, left, right]
  exact .ok (.before none [])

/-- A query is read alike with semicolons after it and without them. -/
theorem queryAt_ends {rest' : List Token} :
    queryAt levels (ts ++ List.replicate n semicolon) = .ok (q, rest') ↔
      ∃ rest, rest' = rest ++ List.replicate n semicolon ∧ queryAt levels ts = .ok (q, rest) := by
  have swaps := (levelAt_swaps (T := .ends n) (fun _ _ => suffix_ends _ _) levels).1.query ts
  unfold Tails.SwapsAt at swaps
  simp only [Tails.ends, List.append_nil, levelAt] at swaps
  generalize queryAt levels ts = o at swaps ⊢
  generalize queryAt levels (ts ++ List.replicate n semicolon) = o' at swaps ⊢
  cases swaps with
  | ok alike =>
    cases alike with
    | before q' b =>
      simp only [List.append_nil, Except.ok.injEq, Prod.mk.injEq]
      constructor
      · rintro ⟨rfl, rfl⟩
        exact ⟨b, rfl, rfl, rfl⟩
      · rintro ⟨_, rfl, rfl, rfl⟩
        exact ⟨rfl, rfl⟩
    | past _ differ => exact (differ.elim fun _ _ none => none).elim
  | error => simp
  | left lax => exact (lax trivial).elim
  | right lax => exact (lax trivial).elim

/-- What is left of the tokens is their end. -/
theorem queryAt_suffix (ran : queryAt levels ts = .ok (q, rest)) : rest <:+ ts := by
  obtain ⟨o, k, same, _⟩ := (levelAt_agrees False levels).1.query ts ts
  change queryAt levels ts = _ at same
  rw [same] at ran
  cases o with
  | error e => cases ran
  | ok q' =>
    cases ran
    exact List.drop_suffix k ts

/-- A statement that ends in no semicolon takes one after it at most. -/
theorem statementAt_ends (last : semicolon ∉ ts.getLast?) :
    statementAt levels (ts ++ List.replicate n semicolon) = .ok (q, rest) ↔
      rest = [] ∧ n ≤ 1 ∧ queryAt levels ts = .ok (q, []) := by
  have left_nil {mid : List Token} (ran : queryAt levels ts = .ok (q, mid))
      (ends : mid = [] ∨ mid = [semicolon]) : mid = [] := by
    rcases ends with rfl | rfl
    · rfl
    · obtain ⟨before, rfl⟩ := queryAt_suffix ran
      exact absurd (by simp) last
  rw [statementAt_eq_ok, queryAt_ends, queryAt_ends]
  refine and_congr_right fun _ => ⟨?_, ?_⟩
  · rintro (⟨mid, same, ran⟩ | ⟨mid, same, ran⟩)
    · obtain ⟨rfl, none⟩ := List.append_eq_nil_iff.1 same.symm
      rw [List.replicate_eq_nil_iff] at none
      exact ⟨by omega, ran⟩
    · have few : mid.length + n = 1 := by simpa using (congrArg List.length same).symm
      have ends : mid = [] ∨ mid = [semicolon] := by
        cases mid with
        | nil => exact .inl rfl
        | cons t mid =>
          rw [List.cons_append, List.cons.injEq] at same
          obtain ⟨rfl, _⟩ := List.append_eq_nil_iff.1 same.2.symm
          exact .inr (same.1 ▸ rfl)
      exact ⟨by omega, left_nil ran ends ▸ ran⟩
  · rintro ⟨few, ran⟩
    match n, few with
    | 0, _ => exact .inl ⟨[], rfl, ran⟩
    | 1, _ => exact .inr ⟨[], rfl, ran⟩

end Grammar

namespace Session

theorem statement_ends (ls semis : List Lexeme) (limit : Nat) (q : Query)
    (last : ∀ l ∈ ls.getLast?, l.toToken ≠ semicolon) (all : ∀ l ∈ semis, l.toToken = semicolon) :
    (start (ls ++ semis) limit).statement.1 = .ok q ↔
      semis.length ≤ 1 ∧ Grammar.queryAt limit (Lexeme.tokens ls) = .ok (q, []) := by
  have apart : semicolon ∉ (Lexeme.tokens ls).getLast? := by
    simpa [Lexeme.tokens] using fun l mem => last l mem
  have ends : Lexeme.tokens semis = List.replicate semis.length semicolon := by
    refine List.eq_replicate_iff.2 ⟨List.length_map _, fun t mem => ?_⟩
    obtain ⟨l, inside, rfl⟩ := List.mem_map.1 mem
    exact all l inside
  rw [statement_eq_ok, Lexeme.tokens, List.map_append, ← Lexeme.tokens, ← Lexeme.tokens, ends]
  simp only [Grammar.statementAt_ends apart, exists_eq_left]

/-- A semicolon after a statement changes nothing, and there are never two. -/
theorem statement_semicolon (ls : List Lexeme) (limit : Nat) {semi semi' : Lexeme}
    (last : ∀ l ∈ ls.getLast?, l.toToken ≠ semicolon) (h : semi.toToken = semicolon)
    (h' : semi'.toToken = semicolon) :
    (∀ q, (start ls limit).statement.1 = .ok q ↔ (start (ls ++ [semi]) limit).statement.1 = .ok q) ∧
      ∀ q, (start (ls ++ [semi, semi']) limit).statement.1 ≠ .ok q := by
  have whole (q : Query) := statement_ends ls [] limit q last nofun
  have one (q : Query) := statement_ends ls [semi] limit q last (List.forall_mem_singleton.2 h)
  have two (q : Query) := statement_ends ls [semi, semi'] limit q last
    (List.forall_mem_cons.2 ⟨h, List.forall_mem_singleton.2 h'⟩)
  constructor
  · intro q
    rw [List.append_nil] at whole
    rw [whole, one]
    simp
  · intro q read
    exact absurd ((two q).1 read).1 (Nat.not_succ_le_self 1)

/-- `select a from t as x;` reads as it does without the semicolon, and a second one is not taken. -/
theorem statement_semicolon_alias :
    let lexemes : List Lexeme := [.ofText .command "select" 0, .ofText .identifier "a" 7,
      .ofText .command "from" 9, .ofText .identifier "t" 14, .ofText .command "as" 16,
      .ofText .identifier "x" 19]
    let semi : Lexeme := .ofText .operator ";" 20
    let semi' : Lexeme := .ofText .operator ";" 21
    (∃ q, (start lexemes 2).statement.1 = .ok q ∧
      (start (lexemes ++ [semi]) 2).statement.1 = .ok q) ∧
      ∀ q, (start (lexemes ++ [semi, semi']) 2).statement.1 ≠ .ok q := by
  intro lexemes semi semi'
  have apart : ∀ l ∈ lexemes.getLast?, l.toToken ≠ semicolon := by decide
  obtain ⟨same, never⟩ := statement_semicolon lexemes 2 apart (rfl : semi.toToken = semicolon)
    (rfl : semi'.toToken = semicolon)
  obtain ⟨q, read⟩ : ∃ q, (start lexemes 2).statement.1 = .ok q :=
    ⟨_, statement_eq_ok.2 ⟨_, rfl⟩⟩
  exact ⟨⟨q, read, (same q).1 read⟩, never⟩

end Session

end SqlQuery
