import SqlQuery.Proofs.Rule.Relation

/-!
Two runs of a rule side by side. The tokens of the second run may differ from those of the first
beyond the third that is left, and it may be allowed to nest deeper.
-/

namespace SqlQuery

namespace Rule

/-- What a rule comes to: what it makes, or why it gives up and the levels it leaves open. -/
abbrev Outcome (α : Type) := Except (Cause × Nat) α

variable {α β : Type}

/-- The outcome of a rule that took so many of the tokens. -/
def Outcome.after (k : Nat) (ts : List Token) : Outcome α → Except Stop (α × List Token)
  | .ok a => .ok (a, ts.drop k)
  | .error (cause, raised) => .error ⟨cause, ts.drop k, raised⟩

/-- The rule met the limit of nesting. -/
def Outcome.IsCut (o : Outcome α) : Prop := ∃ raised, o = .error (.tooDeep, raised)

/-- Whatever the rule comes to, it takes that many tokens first. -/
def Reaches (r : Rule α) (k : Nat) (ts : List Token) : Prop :=
  ∃ (o : Outcome α) (k' : Nat), k ≤ k' ∧ r ts = o.after k' ts

/-- As long as the tokens are the same up to the third of those that `r` leaves, `r'` comes to the
same. If it may nest deeper, it may go on where `r` meets the limit. -/
def Agrees (deeper : Prop) (r r' : Rule α) : Prop :=
  ∀ ts ts' : List Token, ∃ (o : Outcome α) (k : Nat), r ts = o.after k ts ∧
    (ts'.take (k + 3) = ts.take (k + 3) →
      r' ts' = o.after k ts' ∨ deeper ∧ o.IsCut ∧ Reaches r' k ts')

theorem take_of_take {γ : Type} {m n : Nat} {l l' : List γ} (le : m ≤ n)
    (same : l'.take n = l.take n) : l'.take m = l.take m := by
  have shorter := congrArg (List.take m) same
  rwa [List.take_take, List.take_take, Nat.min_eq_left le] at shorter

theorem drop_take_of_take {γ : Type} {k m : Nat} {l l' : List γ}
    (same : l'.take (k + m) = l.take (k + m)) : (l'.drop k).take m = (l.drop k).take m := by
  have later := congrArg (List.drop k) same
  rwa [List.drop_take, List.drop_take, Nat.add_sub_cancel_left] at later

theorem getElem?_of_take {γ : Type} {i n : Nat} {l l' : List γ} (lt : i < n)
    (same : l'.take n = l.take n) : l'[i]? = l[i]? := by
  rw [← List.getElem?_take_of_lt lt, same, List.getElem?_take_of_lt lt]

theorem Outcome.not_isCut_ok {a : α} : ¬ Outcome.IsCut (.ok a : Outcome α) := by
  rintro ⟨raised, same⟩
  cases same

theorem bind_after_ok {r : Rule α} {f : α → Rule β} {ts : List Token} {a : α} {k k' : Nat}
    {o : Outcome β} (first : r ts = Outcome.after k ts (.ok a))
    (next : f a (ts.drop k) = o.after k' (ts.drop k)) : (r >>= f) ts = o.after (k + k') ts := by
  have run : (r >>= f) ts = f a (ts.drop k) := by
    simp only [bind, StateT.bind, Except.bind, first, Outcome.after]
  rw [run, next]
  cases o <;> simp only [Outcome.after, List.drop_drop]

theorem bind_after_error {r : Rule α} {f : α → Rule β} {ts : List Token} {e : Cause × Nat} {k : Nat}
    (first : r ts = Outcome.after k ts (.error e)) :
    (r >>= f) ts = Outcome.after k ts (.error e) := by
  simp only [bind, StateT.bind, Except.bind, first, Outcome.after]

theorem Reaches.bind {r : Rule α} {f : α → Rule β} {k : Nat} {ts : List Token} (h : Reaches r k ts)
    (next : ∀ a ts, Reaches (f a) 0 ts) : Reaches (r >>= f) k ts := by
  obtain ⟨o, k₁, le, ran⟩ := h
  cases o with
  | error e => exact ⟨.error e, k₁, le, bind_after_error ran⟩
  | ok a =>
    obtain ⟨o, k₂, _, ran₂⟩ := next a (ts.drop k₁)
    exact ⟨o, k₁ + k₂, Nat.le_add_right_of_le le, bind_after_ok ran ran₂⟩

theorem shortens_of_reaches {r : Rule α} (h : ∀ ts, Reaches r 0 ts) : Shortens r := by
  intro ts a rest run
  obtain ⟨o, k', _, ran⟩ := h ts
  rw [run] at ran
  cases o with
  | error e => cases ran
  | ok b =>
    obtain ⟨_, rfl⟩ := Prod.mk.inj (Except.ok.inj ran)
    rw [List.length_drop]
    omega

namespace Agrees

variable {deeper : Prop} {r r' : Rule α}

theorem reaches_left (h : Agrees deeper r r') (ts : List Token) : Reaches r 0 ts := by
  obtain ⟨o, k, ran, _⟩ := h ts ts
  exact ⟨o, k, Nat.zero_le k, ran⟩

theorem reaches_right (h : Agrees deeper r r') (ts : List Token) : Reaches r' 0 ts := by
  obtain ⟨o, k, _, agrees⟩ := h ts ts
  rcases agrees rfl with ran | ⟨_, _, o', k', _, ran⟩
  · exact ⟨o, k, Nat.zero_le k, ran⟩
  · exact ⟨o', k', Nat.zero_le k', ran⟩

/-- What is made within a limit is made if deeper nesting is allowed. -/
theorem eq_ok {ts : List Token} {result : α × List Token} (h : Agrees deeper r r')
    (ran : r ts = .ok result) : r' ts = .ok result := by
  obtain ⟨o, k, same, agrees⟩ := h ts ts
  rcases agrees rfl with same' | ⟨_, ⟨_, rfl⟩, _⟩
  · exact same'.trans (same.symm.trans ran)
  · cases same.symm.trans ran

theorem ret (a : α) : Agrees deeper (pure a) (pure a) :=
  fun _ _ => ⟨.ok a, 0, rfl, fun _ => .inl rfl⟩

theorem stop (cause : Cause) : Agrees deeper (stop cause : Rule α) (Rule.stop cause) :=
  fun _ _ => ⟨.error (cause, 0), 0, rfl, fun _ => .inl rfl⟩

/-- The second rule goes on from where the first one leaves off, three tokens of which are known. -/
theorem bind {f f' : α → Rule β} (first : Agrees deeper r r')
    (next : ∀ a, Agrees deeper (f a) (f' a)) : Agrees deeper (r >>= f) (r' >>= f') := by
  intro ts ts'
  obtain ⟨o, k, ran, agrees⟩ := first ts ts'
  cases o with
  | error e =>
    refine ⟨.error e, k, bind_after_error ran, fun same => ?_⟩
    rcases agrees same with ran' | ⟨more, ⟨raised, cut⟩, reached⟩
    · exact .inl (bind_after_error ran')
    · cases cut
      exact .inr ⟨more, ⟨raised, rfl⟩, reached.bind fun a => (next a).reaches_right⟩
  | ok a =>
    obtain ⟨o, k₂, ran₂, agrees₂⟩ := next a (ts.drop k) (ts'.drop k)
    refine ⟨o, k + k₂, bind_after_ok ran ran₂, fun same => ?_⟩
    have ran' : r' ts' = Outcome.after k ts' (.ok a) := by
      rcases agrees (take_of_take (by omega) same) with ran' | ⟨_, cut, _⟩
      · exact ran'
      · exact absurd cut Outcome.not_isCut_ok
    rw [Nat.add_assoc] at same
    rcases agrees₂ (drop_take_of_take same) with ran₂' | ⟨more, cut, o', k₂', le, ran₂'⟩
    · exact .inl (bind_after_ok ran' ran₂')
    · exact .inr ⟨more, cut, o', k + k₂', Nat.add_le_add_left le k, bind_after_ok ran' ran₂'⟩

/-- No rule looks further ahead than past two tokens. -/
theorem look {n : Nat} (near : n ≤ 2) (p : Token → Bool) :
    Agrees deeper (look n p) (Rule.look n p) := by
  intro ts ts'
  refine ⟨.ok (ts[n]?.any p), 0, rfl, fun same => .inl ?_⟩
  have seen : ts'[n]? = ts[n]? := getElem?_of_take (by omega) same
  simp only [Rule.look, seen, Outcome.after, List.drop_zero]

theorem head?_of_take {k : Nat} {ts ts' : List Token} (same : ts'.take (k + 3) = ts.take (k + 3)) :
    ts'.head? = ts.head? := by
  rw [List.head?_eq_getElem?, List.head?_eq_getElem?, getElem?_of_take (by omega) same]

theorem peek : Agrees deeper peek Rule.peek := by
  intro ts ts'
  refine ⟨.ok ts.head?, 0, rfl, fun same => .inl ?_⟩
  simp only [Rule.peek, head?_of_take same, Outcome.after, List.drop_zero]

theorem skip : Agrees deeper skip Rule.skip := by
  intro ts ts'
  have run (ts : List Token) : Rule.skip ts = Outcome.after 1 ts (.ok ()) := by
    simp only [Rule.skip, Outcome.after, List.drop_one]
  exact ⟨.ok (), 1, run ts, fun _ => .inl (run ts')⟩

theorem accept (f : Token → Option α) : Agrees deeper (accept f) (Rule.accept f) := by
  intro ts ts'
  cases found : ts.head?.bind f with
  | none =>
    refine ⟨.ok none, 0, by simp only [Rule.accept, found, Outcome.after, List.drop_zero],
      fun same => .inl ?_⟩
    rw [← head?_of_take same] at found
    simp only [Rule.accept, found, Outcome.after, List.drop_zero]
  | some a =>
    refine ⟨.ok (some a), 1, by simp only [Rule.accept, found, Outcome.after, List.drop_one],
      fun same => .inl ?_⟩
    rw [← head?_of_take same] at found
    simp only [Rule.accept, found, Outcome.after, List.drop_one]

/-- The tokens of both runs together are a bound for either of them. -/
theorem bounded {r r' : List Token → Rule α} (settled : Settled r) (settled' : Settled r')
    (h : ∀ bound, Agrees deeper (r bound) (r' bound)) :
    Agrees deeper (fun ts => r ts ts) (fun ts => r' ts ts) := by
  intro ts ts'
  have run : r ts ts = r (ts ++ ts') ts := settled _ _ _ (Nat.le_refl _) (by simp)
  have run' : r' ts' ts' = r' (ts ++ ts') ts' := settled' _ _ _ (Nat.le_refl _) (by simp)
  obtain ⟨o, k, ran, agrees⟩ := h (ts ++ ts') ts ts'
  refine ⟨o, k, run.trans ran, fun same => ?_⟩
  rcases agrees same with ran' | ⟨more, cut, o', k', le, ran'⟩
  · exact .inl (run'.trans ran')
  · exact .inr ⟨more, cut, o', k', le, run'.trans ran'⟩

end Agrees

end Rule

open Rule

def Rule.agreement (deeper : Prop) : Relation where
  Holds := Agrees deeper
  shortens h := ⟨shortens_of_reaches h.reaches_left, shortens_of_reaches h.reaches_right⟩
  ret := .ret
  fail _ := .stop _
  bind := .bind
  look := .look
  peek := .peek
  skip := .skip
  accept := .accept
  bounded := .bounded

variable {deeper : Prop}

/-- Whatever it makes, such a rule leaves the last of the tokens. -/
theorem Rule.Relation.Holds.makes {α : Type} {T : Token → Prop} {r r' : Rule α}
    (h : (agreement False).Holds r r') : Makes T r fun _ => True := by
  intro ts a rest _ _ run
  obtain ⟨o, k, _, ran⟩ := Agrees.reaches_left h ts
  rw [run] at ran
  cases o with
  | error e => cases ran
  | ok b =>
    obtain ⟨_, rfl⟩ := Prod.mk.inj (Except.ok.inj ran)
    exact ⟨List.drop_suffix k ts, trivial⟩

/-- The levels inside two scopes, of which the second may be the only one. -/
inductive Level.Inside (deeper : Prop) : Option Level → Option Level → Prop where
  | none : Inside deeper none none
  | some {level level' : Level} (h : level.Related (agreement deeper) level') :
      Inside deeper (some level) (some level')
  | more {level : Level} (more : deeper) (h : level.Related (agreement deeper) level) :
      Inside deeper .none (.some level)

namespace Rule

variable {α : Type}

theorem enter_after {scope : Scope} {level : Level} {rule : Level → Rule α} {ts : List Token}
    {o : Outcome α} {k : Nat} (inside : scope.inside = some level) (ran : rule level ts = o.after k ts) :
    scope.enter rule ts =
      Outcome.after k ts (o.mapError fun stop => (stop.1, stop.2 + 1)) := by
  simp only [Scope.enter, inside, ran]
  cases o <;> rfl

/-- The only rule that meets the limit. -/
theorem Agrees.enter {scope scope' : Scope} (inside : Level.Inside deeper scope.inside scope'.inside)
    {rule : Level → Rule α}
    (nested : ∀ level level', Level.Related (agreement deeper) level level' →
      Agrees deeper (rule level) (rule level')) :
    Agrees deeper (scope.enter rule) (scope'.enter rule) := by
  intro ts ts'
  have limit {scope : Scope} (ts : List Token) (none : scope.inside = none) :
      scope.enter rule ts = Outcome.after 0 ts (.error (.tooDeep, 1)) := by
    simp only [Scope.enter, none, Outcome.after, List.drop_zero]
  generalize left : scope.inside = outer, right : scope'.inside = outer' at inside
  cases inside with
  | none => exact ⟨_, 0, limit ts left, fun _ => .inl (limit ts' right)⟩
  | @some level level' agree =>
    obtain ⟨o, k, ran, agrees⟩ := nested level level' agree ts ts'
    refine ⟨_, k, enter_after left ran, fun same => ?_⟩
    rcases agrees same with ran' | ⟨more, ⟨raised, cut⟩, o', k', le, ran'⟩
    · exact .inl (enter_after right ran')
    · subst cut
      exact .inr ⟨more, ⟨raised + 1, rfl⟩, _, k', le, enter_after right ran'⟩
  | @more level more agree =>
    refine ⟨_, 0, limit ts left, fun _ => .inr ⟨more, ⟨1, rfl⟩, ?_⟩⟩
    obtain ⟨o, k, le, ran⟩ := (nested level level agree).reaches_left ts'
    exact ⟨_, k, le, enter_after right ran⟩

end Rule

theorem Scope.related_of_inside {scope scope' : Scope}
    (here : scope.here.Related (agreement deeper) scope'.here)
    (inside : Level.Inside deeper scope.inside scope'.inside) :
    scope.Related (agreement deeper) (agreement deeper) scope' :=
  ⟨here, fun nested => Agrees.enter inside nested⟩

end SqlQuery
