import SqlQuery.Proofs.Tree.Height
import SqlQuery.Proofs.Written.Writer

/-!
What decides whether a node is written, and the error if it is not: the node alone, once the limit is
as high as the node, and never the dialect.
-/

namespace SqlQuery

namespace Step

variable {check check' : Node → Except WriteError Unit}

/-- Steps that do the same, unless they fail with the error, do the same together. -/
theorem runAll_agree {e : WriteError} {steps : List Step}
    (each : ∀ s ∈ steps, s.run check = .error e ∨ s.run check' = s.run check) :
    runAll check steps = .error e ∨ runAll check' steps = runAll check steps := by
  induction steps with
  | nil => exact .inr rfl
  | cons s steps ih =>
    obtain ⟨first, others⟩ := List.forall_mem_cons.1 each
    rw [runAll, runAll]
    rcases first with failed | same
    · rw [failed]
      exact .inl rfl
    rw [same]
    cases s.run check with
    | error own => exact .inr rfl
    | ok _ => exact ih others

end Step

namespace Node

variable {limit more levels others : Nat} {n : Node}

/-- More levels change the outcome only where there were too few. -/
theorem checkAt_more (le : levels ≤ others) :
    n.checkAt limit levels = .error (.tooDeep limit) ∨
      n.checkAt more others = n.checkAt limit levels := by
  induction levels generalizing n others with
  | zero => exact .inl rfl
  | succ levels ih =>
    obtain ⟨others, rfl⟩ := Nat.exists_eq_add_of_le' (Nat.lt_of_succ_le le)
    refine Step.runAll_agree fun s _ => ?_
    cases s with
    | visit m => exact ih (Nat.le_of_succ_le_succ le)
    | check text => exact .inr rfl
    | refuse e => exact .inr rfl

/-- Nothing that a node holds is too deep by itself. -/
theorem Spoils.ne_tooDeep {e : WriteError} (h : n.Spoils e) (k : Nat) : e ≠ .tooDeep k := by
  rintro rfl
  cases h with
  | text _ invalid =>
    have failed := rawText_of_validate invalid
    unfold rawText at failed
    dsimp only at failed
    split at failed
    · cases failed
    split at failed <;> cases failed
  | window _ _ same => cases same

/-- Every part that is written is lower than the node. -/
theorem checkAt_high (high : n.height ≤ levels) (k : Nat) :
    n.checkAt limit levels ≠ .error (.tooDeep k) := by
  induction levels generalizing n with
  | zero =>
    rw [height_eq] at high
    omega
  | succ levels ih =>
    intro failed
    obtain ⟨s, mem, ran⟩ := Step.runAll_error failed
    obtain ⟨m, below, run⟩ | run | ⟨e, run, spoils⟩ := steps_own mem
    · have small := height_below below
      exact ih (by omega) (run.symm.trans ran)
    · cases run.symm.trans ran
    · exact spoils.ne_tooDeep k (Except.error.inj (run.symm.trans ran))

/-- A limit cuts off and does nothing else: under a higher one the text is the same, and so is every
error but the one of the limit. No limit gives that one if no path down holds more nodes. -/
theorem write_limit (n : Node) (d : Dialect) {limit more : Nat} (le : limit ≤ more) :
    (∀ out, n.write d limit = .ok out → n.write d more = .ok out) ∧
      (∀ e, n.write d limit = .error e → (∀ k, e ≠ .tooDeep k) → n.write d more = .error e) ∧
      ∀ high, (∀ path, n.Path path → path.length + 1 ≤ high) →
        ∀ k, n.write d high ≠ .error (.tooDeep k) := by
  have same : n.checkAt limit limit = .error (.tooDeep limit) ∨
      n.checkAt more more = n.checkAt limit limit := checkAt_more le
  refine ⟨fun out written => ?_, fun e failed other => ?_, fun high within k failed => ?_⟩
  · obtain ⟨checked, spelled⟩ := write_ok_iff.1 written
    rcases same with deep | same
    · cases deep.symm.trans checked
    · exact write_ok_iff.2 ⟨same.trans checked, spelled⟩
  · have checked := write_error_iff.1 failed
    rcases same with deep | same
    · exact absurd (Except.error.inj (checked.symm.trans deep)) (other limit)
    · exact write_error_iff.2 (same.trans checked)
  · exact checkAt_high (height_le_iff.2 within) k (write_error_iff.1 failed)

/-- Two parentheses in a select stand four levels down, and an operator is no mark of its own. -/
theorem write_limit_parens :
    let one := Expr.paren (.paren (.number "1"))
    let clause : SelectClause := ⟨none, [⟨one, none⟩]⟩
    let n := Node.query (.simple ⟨none, clause, none, none, none, none, none, none, none, none, none⟩)
    let marked := Node.expr (.unary ";" one)
    (∀ path, n.Path path → path.length + 1 ≤ 6) ∧ n.write .standard 5 = .error (.tooDeep 5) ∧
      n.write .standard 6 = .ok "select ((1))" ∧ n.write .standard 9 = .ok "select ((1))" ∧
      (∀ k, n.write .standard 6 ≠ .error (.tooDeep k)) ∧
      marked.write .standard 1 = .error (.invalidKeyword ";") ∧
      marked.write .standard 9 = .error (.invalidKeyword ";") := by
  intro one clause n marked
  have within : ∀ path, n.Path path → path.length + 1 ≤ 6 := height_le_iff.1 (by decide +kernel)
  have written : n.write .standard 6 = .ok "select ((1))" := by decide +kernel
  have failed : marked.write .standard 1 = .error (.invalidKeyword ";") := by decide +kernel
  obtain ⟨same, _, high⟩ := n.write_limit .standard (show 6 ≤ 9 by decide)
  obtain ⟨_, alike, _⟩ := marked.write_limit .standard (show 1 ≤ 9 by decide)
  exact ⟨within, by decide +kernel, written, same _ written, high 6 within, failed,
    alike _ failed (by simp)⟩

/-- Two dialects write the same nodes, and give the same error where they do not. -/
theorem write_dialects (n : Node) (limit : Nat) (d d' : Dialect) :
    ((∃ out, n.write d limit = .ok out) ↔ ∃ out, n.write d' limit = .ok out) ∧
      ∀ e, n.write d limit = .error e ↔ n.write d' limit = .error e := by
  have written (d : Dialect) :
      (∃ out, n.write d limit = .ok out) ↔ n.checkAt limit limit = .ok () := by
    simp only [write_ok_iff, exists_and_left, exists_eq', and_true]
  have failed (d : Dialect) (e : WriteError) :
      n.write d limit = .error e ↔ n.checkAt limit limit = .error e := write_error_iff
  exact ⟨(written d).trans (written d').symm, fun e => (failed d e).trans (failed d' e).symm⟩

end Node

end SqlQuery
