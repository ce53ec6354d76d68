import SqlQuery.Proofs.Relation.Query

/-!
The levels that a rule leaves open when it fails: no more than it may open, and one for the level that
is refused.
-/

namespace SqlQuery

namespace Rule

variable {α β : Type}

/-- A rule that gives up leaves so many levels open at most, and never does so for what comes after a
statement. -/
structure Opens (most : Nat) (r : Rule α) : Prop where
  shortens : Shortens r
  failed : ∀ ts stop, r ts = .error stop → stop.raised ≤ most ∧ stop.cause ≠ .trailing

namespace Opens

variable {most more : Nat} {r : Rule α}

theorem mono (h : Opens most r) (le : most ≤ more) : Opens more r :=
  ⟨h.shortens, fun ts stop ran => ⟨Nat.le_trans (h.failed ts stop ran).1 le, (h.failed ts stop ran).2⟩⟩

/-- A rule that cannot fail. -/
theorem of_total (shortens : Shortens r) (total : ∀ ts, ∃ result, r ts = .ok result) :
    Opens most r := by
  refine ⟨shortens, fun ts stop ran => ?_⟩
  obtain ⟨result, done⟩ := total ts
  cases done.symm.trans ran

theorem fail (what : String) : Opens most (fail what : Rule α) := by
  refine ⟨fun ts a rest run => absurd run fail_ne_ok, fun ts stop ran => ?_⟩
  cases ran
  exact ⟨Nat.zero_le most, nofun⟩

theorem bind {f : α → Rule β} (first : Opens most r) (next : ∀ a, Opens most (f a)) :
    Opens most (r >>= f) := by
  refine ⟨first.shortens.bind fun a => (next a).shortens, fun ts stop ran => ?_⟩
  rcases bind_eq_error.1 ran with ran | ⟨a, mid, _, ran⟩
  · exact first.failed ts stop ran
  · exact (next a).failed mid stop ran

theorem accept (f : Token → Option α) : Opens most (accept f) := by
  refine of_total shortens_accept fun ts => ?_
  unfold Rule.accept
  split
  · exact ⟨_, rfl⟩
  · exact ⟨_, rfl⟩

theorem skip : Opens most skip := by
  refine of_total (fun ts a rest run => ?_) fun ts => ⟨_, rfl⟩
  cases run
  exact List.length_tail ▸ Nat.sub_le ts.length 1

/-- A rule that leaves the tokens where they are. -/
theorem still {r : Rule α} (run : ∀ ts, ∃ a, r ts = .ok (a, ts)) : Opens most r := by
  refine of_total (fun ts a rest ran => ?_) fun ts => ?_
  · obtain ⟨b, same⟩ := run ts
    obtain ⟨_, rfl⟩ := Prod.mk.inj (Except.ok.inj (same.symm.trans ran))
    exact Nat.le_refl _
  · obtain ⟨a, same⟩ := run ts
    exact ⟨_, same⟩

end Opens

/-- The bound on the levels left open, as it is kept by all that rules are put together with. -/
def opening (most : Nat) : Relation where
  Holds r r' := Opens most r ∧ Opens most r'
  shortens h := ⟨h.1.shortens, h.2.shortens⟩
  ret a := ⟨.still fun _ => ⟨a, rfl⟩, .still fun _ => ⟨a, rfl⟩⟩
  fail what := ⟨.fail what, .fail what⟩
  bind first next := ⟨first.1.bind fun a => (next a).1, first.2.bind fun a => (next a).2⟩
  look _ _ := ⟨.still fun _ => ⟨_, rfl⟩, .still fun _ => ⟨_, rfl⟩⟩
  peek := ⟨.still fun _ => ⟨_, rfl⟩, .still fun _ => ⟨_, rfl⟩⟩
  skip := ⟨.skip, .skip⟩
  accept f := ⟨.accept f, .accept f⟩
  bounded _ _ h :=
    ⟨⟨fun ts => (h ts).1.shortens ts, fun ts => (h ts).1.failed ts⟩,
      ⟨fun ts => (h ts).2.shortens ts, fun ts => (h ts).2.failed ts⟩⟩

/-- The rule counts the level that it opens, and of those that stay open in it one more. -/
theorem Opens.enter {most : Nat} {scope : Scope} {rule : Level → Rule α} (any : 0 < most)
    (nested : ∀ level, scope.inside = some level → Opens (most - 1) (rule level)) :
    Opens most (scope.enter rule) := by
  refine ⟨fun ts a rest run => ?_, fun ts stop ran => ?_⟩
  · obtain ⟨level, inside, ran⟩ := enter_eq_ok run
    exact (nested level inside).shortens ts a rest ran
  · unfold Scope.enter at ran
    split at ran
    case h_1 =>
      cases ran
      exact ⟨any, nofun⟩
    case h_2 level inside =>
      cases result : rule level ts with
      | ok _ =>
        rw [result] at ran
        cases ran
      | error stop' =>
        rw [result] at ran
        cases ran
        obtain ⟨few, cause⟩ := (nested level inside).failed ts stop' result
        exact ⟨by dsimp only; omega, cause⟩

end Rule

open Rule

theorem Level.Related.weaken {most more : Nat} {level level' : Level}
    (h : level.Related (opening most) level') (le : most ≤ more) :
    level.Related (opening more) level' :=
  ⟨fun floor => ⟨(h.expr floor).1.mono le, (h.expr floor).2.mono le⟩,
    ⟨h.query.1.mono le, h.query.2.mono le⟩⟩

namespace Grammar

/-- So many levels may be opened, and the next one is refused. -/
theorem levelAt_opens (n : Nat) : (levelAt n).Related (opening (n + 1)) (levelAt n) ∧
    (scopeAt n).Related (opening (n + 1)) (opening n) (scopeAt n) := by
  induction n with
  | zero =>
    have refused {α : Type} {r : Rule α} (run : ∀ ts, r ts = .error ⟨.tooDeep, ts, 1⟩) : Opens 1 r := by
      refine ⟨fun ts a rest ran => ?_, fun ts stop ran => ?_⟩
      · cases (run ts).symm.trans ran
      · cases (run ts).symm.trans ran
        exact ⟨Nat.le_refl 1, fun same => by cases same⟩
    have expr (floor : Nat) : Opens 1 ((levelAt 0).expr floor) :=
      refused fun ts => by simp only [levelAt, exprAt]
    have query : Opens 1 (levelAt 0).query := refused fun ts => by simp only [levelAt, queryAt]
    have here : (levelAt 0).Related (opening 1) (levelAt 0) :=
      ⟨fun floor => ⟨expr floor, expr floor⟩, ⟨query, query⟩⟩
    refine ⟨here, here, fun _ => ?_⟩
    have outside {α : Type} {rule : Level → Rule α} : Opens 1 ((scopeAt 0).enter rule) :=
      .enter Nat.one_pos fun _ same => by cases same
    exact ⟨outside, outside⟩
  | succ n ih =>
    have here : (levelAt (n + 1)).Related (opening (n + 2)) (levelAt (n + 1)) :=
      (levelAt_succ_related ih.2).weaken (Nat.le_succ _)
    refine ⟨here, here, fun nested => ?_⟩
    have inside := nested _ _ ih.1
    have entered {α : Type} {rule : Level → Rule α} (opens : Opens (n + 1) (rule (levelAt n))) :
        Opens (n + 2) ((scopeAt (n + 1)).enter rule) := by
      refine .enter (Nat.succ_pos _) fun level same => ?_
      cases same
      exact opens
    exact ⟨entered inside.1, entered inside.2⟩

theorem statementAt_stop {n : Nat} {ts : List Token} {stop : Stop}
    (ran : statementAt n ts = .error stop) :
    stop.raised ≤ n + 1 ∧ (stop.cause = .trailing → stop.rest ≠ []) := by
  rcases bind_eq_error.1 ran with ran | ⟨query, mid, _, ran⟩
  · obtain ⟨few, cause⟩ := (levelAt_opens n).1.query.1.failed ts stop ran
    exact ⟨few, fun trailing => absurd trailing cause⟩
  rcases bind_eq_error.1 ran with ran | ⟨_, rest, _, ran⟩
  · have semicolon : (opening 0).Holds (eat fun t => t.isOperator ";") (eat fun t => t.isOperator ";") :=
      .eat _
    obtain ⟨few, cause⟩ := semicolon.1.failed mid stop ran
    exact ⟨Nat.le_trans few (Nat.zero_le _), fun trailing => absurd trailing cause⟩
  · cases rest with
    | nil => cases ran
    | cons t rest =>
      cases ran
      exact ⟨Nat.zero_le _, fun _ => List.cons_ne_nil t rest⟩

end Grammar

end SqlQuery
