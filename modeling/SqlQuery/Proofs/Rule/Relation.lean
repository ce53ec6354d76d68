import SqlQuery.Proofs.Rule.Gets

/-!
Relations between two runs of the grammar. A relation that holds of the smallest rules and is kept
wherever rules are put together is kept by every rule, since a rule is put together from these.
-/

namespace SqlQuery

namespace Rule

variable {α β : Type}

/-- The rule leaves no more tokens than it finds. -/
def Shortens (r : Rule α) : Prop := ∀ ts a rest, r ts = .ok (a, rest) → rest.length ≤ ts.length

/-- A bound that is long enough for the tokens is as good as any other. -/
def Settled (r : List Token → Rule α) : Prop :=
  ∀ bound bound' ts, ts.length ≤ bound.length → ts.length ≤ bound'.length → r bound ts = r bound' ts

/-- A relation of rules that is kept wherever rules are put together. No rule looks further ahead than
past two tokens, and the tokens themselves bound what is repeated. -/
structure Relation where
  Holds {α : Type} : Rule α → Rule α → Prop
  shortens {α : Type} {r r' : Rule α} : Holds r r' → Shortens r ∧ Shortens r'
  ret {α : Type} (a : α) : Holds (pure a) (pure a)
  fail {α : Type} (what : String) : Holds (Rule.fail what : Rule α) (Rule.fail what)
  bind {α β : Type} {r r' : Rule α} {f f' : α → Rule β} :
    Holds r r' → (∀ a, Holds (f a) (f' a)) → Holds (r >>= f) (r' >>= f')
  look {n : Nat} (near : n ≤ 2) (p : Token → Bool) : Holds (Rule.look n p) (Rule.look n p)
  peek : Holds Rule.peek Rule.peek
  skip : Holds Rule.skip Rule.skip
  accept {α : Type} (f : Token → Option α) : Holds (Rule.accept f) (Rule.accept f)
  bounded {α : Type} {r r' : List Token → Rule α} (settled : Settled r) (settled' : Settled r') :
    (∀ bound, Holds (r bound) (r' bound)) → Holds (fun ts => r ts ts) (fun ts => r' ts ts)

theorem bind_eq_error {r : Rule α} {f : α → Rule β} {ts : List Token} {stop : Stop} :
    (r >>= f) ts = .error stop ↔
      r ts = .error stop ∨ ∃ a rest, r ts = .ok (a, rest) ∧ f a rest = .error stop := by
  simp only [bind, StateT.bind, Except.bind]
  cases r ts with
  | error stop' => simp
  | ok result =>
    refine ⟨fun ran => .inr ⟨result.1, result.2, rfl, ran⟩, ?_⟩
    rintro (ran | ⟨a, rest, same, ran⟩)
    · cases ran
    · cases same
      exact ran

theorem bind_congr_ok {r : Rule α} {f f' : α → Rule β} {ts : List Token}
    (next : ∀ a rest, r ts = .ok (a, rest) → f a rest = f' a rest) :
    (r >>= f) ts = (r >>= f') ts := by
  simp only [bind, StateT.bind, Except.bind]
  cases ran : r ts with
  | error e => rfl
  | ok result => exact next result.1 result.2 ran

theorem bind_congr_run {r r' : Rule α} {f : α → Rule β} {ts : List Token} (first : r ts = r' ts) :
    (r >>= f) ts = (r' >>= f) ts := by
  simp only [bind, StateT.bind, first]

theorem accept_shorter {f : Token → Option α} {ts rest : List Token} {a : α}
    (run : accept f ts = .ok (some a, rest)) : rest.length < ts.length := by
  obtain ⟨t, rfl, _⟩ := accept_eq_some run
  exact Nat.lt_succ_self rest.length

theorem expect_shorter {f : Token → Option α} {what : String} {ts rest : List Token} {a : α}
    (run : expect f what ts = .ok (a, rest)) : rest.length < ts.length := by
  obtain ⟨o, mid, ran, last⟩ := bind_eq_ok.1 run
  cases o with
  | none => exact absurd last fail_ne_ok
  | some b =>
    obtain ⟨_, rfl⟩ := pure_eq_ok.1 last
    exact accept_shorter ran

theorem shortens_accept {f : Token → Option α} : Shortens (accept f) := by
  intro ts o rest run
  unfold accept at run
  split at run
  case h_1 =>
    cases run
    exact Nat.le_refl _
  case h_2 =>
    cases run
    exact List.length_tail ▸ Nat.sub_le ts.length 1

theorem Shortens.bind {r : Rule α} {f : α → Rule β} (first : Shortens r)
    (next : ∀ a, Shortens (f a)) : Shortens (r >>= f) := by
  intro ts b rest run
  obtain ⟨a, mid, ran, ran'⟩ := bind_eq_ok.1 run
  exact Nat.le_trans (next a mid b rest ran') (first ts a mid ran)

theorem shortens_ret {a : α} : Shortens (pure a) := by
  intro ts b rest run
  obtain ⟨_, rfl⟩ := pure_eq_ok.1 run
  exact Nat.le_refl _

theorem shortens_eat {p : Token → Bool} : Shortens (eat p) :=
  shortens_accept.bind fun _ => shortens_ret

/-- An item of a list: there is none among no tokens, and otherwise it takes a token. -/
structure Takes (item : Rule (Option α)) : Prop where
  none : item [] = .ok (none, [])
  shorter : ∀ ts a rest, item ts = .ok (some a, rest) → rest.length < ts.length

theorem Takes.of_accept {γ : Type} {f : Token → Option γ} {g : Option γ → Rule (Option α)}
    (missing : g .none = pure .none) (next : ∀ c, Shortens (g c)) : Takes (accept f >>= g) := by
  refine ⟨?_, fun ts a rest run => ?_⟩
  · refine bind_eq_ok.2 ⟨.none, [], rfl, ?_⟩
    rw [missing]
    rfl
  · obtain ⟨o, mid, ran, ran'⟩ := bind_eq_ok.1 run
    cases o with
    | none =>
      rw [missing] at ran'
      cases (pure_eq_ok.1 ran').1
    | some c => exact Nat.lt_of_le_of_lt (next (.some c) mid _ _ ran') (accept_shorter ran)

/-- An item that starts with a mark. -/
theorem Takes.of_after {p : Token → Bool} {r : Rule α} (next : Shortens r) :
    Takes (after (eat p) r) := by
  have marked : after (eat p) r = accept (fun t => if p t then some () else .none) >>= fun o =>
      if o.isSome then some <$> r else pure .none := by
    simp only [after, eat, bind_map_left]
  rw [marked]
  refine of_accept rfl fun o => ?_
  cases o with
  | none => exact shortens_ret
  | some _ => exact next.bind fun _ => shortens_ret

theorem settled_upTo {item : Rule (Option α)} (taking : Takes item) : Settled (upTo item) := by
  have empty (bound : List Token) : upTo item bound [] = .ok ([], []) := by
    cases bound with
    | nil => rfl
    | cons t bound => exact bind_eq_ok.2 ⟨none, [], taking.none, rfl⟩
  intro bound
  induction bound with
  | nil =>
    intro bound' ts long _
    obtain rfl := List.length_eq_zero_iff.1 (Nat.le_zero.1 long)
    rw [empty, empty]
  | cons t bound ih =>
    intro bound' ts long long'
    cases bound' with
    | nil =>
      obtain rfl := List.length_eq_zero_iff.1 (Nat.le_zero.1 long')
      rw [empty, empty]
    | cons t' bound' =>
      refine bind_congr_ok fun o rest ran => ?_
      cases o with
      | none => rfl
      | some a =>
        have short := taking.shorter ts a rest ran
        simp only [List.length_cons] at long long'
        exact bind_congr_run (ih bound' rest (by omega) (by omega))

namespace Relation.Holds

variable {R : Relation} {r r' : Rule α}

theorem ret (a : α) : R.Holds (pure a) (pure a) := R.ret a

theorem fail (what : String) : R.Holds (Rule.fail what : Rule α) (Rule.fail what) := R.fail what

theorem bind {f f' : α → Rule β} (first : R.Holds r r') (next : ∀ a, R.Holds (f a) (f' a)) :
    R.Holds (r >>= f) (r' >>= f') :=
  R.bind first next

theorem look {n : Nat} (near : n ≤ 2) (p : Token → Bool) :
    R.Holds (Rule.look n p) (Rule.look n p) :=
  R.look near p

theorem peek : R.Holds Rule.peek Rule.peek := R.peek

theorem skip : R.Holds Rule.skip Rule.skip := R.skip

theorem accept (f : Token → Option α) : R.Holds (Rule.accept f) (Rule.accept f) := R.accept f

theorem map (g : α → β) (h : R.Holds r r') : R.Holds (g <$> r) (g <$> r') :=
  h.bind fun a => ret (g a)

theorem ite {c : Prop} [Decidable c] {s s' : Rule α} (yes : R.Holds r r') (no : R.Holds s s') :
    R.Holds (if c then r else s) (if c then r' else s') := by
  by_cases h : c
  · rwa [if_pos h, if_pos h]
  · rwa [if_neg h, if_neg h]

/-- What a test chooses between. -/
theorem choose {test test' : Rule Bool} {s s' : Rule α} (tested : R.Holds test test')
    (yes : R.Holds r r') (no : R.Holds s s') :
    R.Holds (test >>= fun b => if b then r else s) (test' >>= fun b => if b then r' else s') :=
  tested.bind fun _ => ite yes no

theorem eat (p : Token → Bool) : R.Holds (Rule.eat p) (Rule.eat p) := (accept _).map _

theorem expect (f : Token → Option α) (what : String) :
    R.Holds (Rule.expect f what) (Rule.expect f what) := by
  refine (accept f).bind fun o => ?_
  cases o with
  | none => exact fail what
  | some a => exact ret a

theorem require (p : Token → Bool) (what : String) :
    R.Holds (Rule.require p what) (Rule.require p what) :=
  expect _ _

theorem after {mark mark' : Rule Bool} (marked : R.Holds mark mark') (item : R.Holds r r') :
    R.Holds (Rule.after mark r) (Rule.after mark' r') :=
  marked.choose (item.map some) (ret none)

theorem upTo {item item' : Rule (Option α)} (h : R.Holds item item') (bound : List Token) :
    R.Holds (Rule.upTo item bound) (Rule.upTo item' bound) := by
  induction bound with
  | nil => exact ret []
  | cons t bound ih =>
    refine h.bind fun o => ?_
    cases o with
    | none => exact ret []
    | some a => exact ih.map (a :: ·)

theorem many {item item' : Rule (Option α)} (h : R.Holds item item') (taking : Takes item)
    (taking' : Takes item') : R.Holds (Rule.many item) (Rule.many item') := by
  have bounded := R.bounded (settled_upTo taking) (settled_upTo taking') h.upTo
  exact bounded

/-- Items that each start with a token of their own. -/
theorem many_accept {γ : Type} {f : Token → Option γ} {g g' : Option γ → Rule (Option α)}
    (missing : g none = pure none) (missing' : g' none = pure none)
    (next : ∀ c, R.Holds (g c) (g' c)) :
    R.Holds (Rule.many (Rule.accept f >>= g)) (Rule.many (Rule.accept f >>= g')) :=
  many ((accept f).bind next) (.of_accept missing fun c => (R.shortens (next c)).1)
    (.of_accept missing' fun c => (R.shortens (next c)).2)

theorem many_after {p : Token → Bool} (h : R.Holds r r') :
    R.Holds (Rule.many (Rule.after (Rule.eat p) r)) (Rule.many (Rule.after (Rule.eat p) r')) :=
  many (.after (.eat p) h) (.of_after (R.shortens h).1) (.of_after (R.shortens h).2)

theorem commaList (h : R.Holds r r') : R.Holds (Rule.commaList r) (Rule.commaList r') :=
  h.bind fun a => h.many_after.bind fun as => ret (a :: as)

theorem name : R.Holds Rule.name Rule.name := expect _ _

theorem nameList : R.Holds Rule.nameList Rule.nameList :=
  (require _ _).bind fun _ => name.commaList.bind fun names => (require _ _).bind fun _ => ret names

theorem columnNames : R.Holds Rule.columnNames Rule.columnNames :=
  (look (Nat.zero_le 2) _).choose nameList (ret [])

end Relation.Holds

end Rule

open Rule

structure Level.Related (R : Relation) (level level' : Level) : Prop where
  expr : ∀ floor, R.Holds (level.expr floor) (level'.expr floor)
  query : R.Holds level.query level'.query

/-- The scopes of two runs. Rules of the level inside keep a relation of their own. -/
structure Scope.Related (R inner : Relation) (scope scope' : Scope) : Prop where
  here : scope.here.Related R scope'.here
  enter : ∀ {α : Type} {rule : Level → Rule α},
    (∀ level level', Level.Related inner level level' → inner.Holds (rule level) (rule level')) →
      R.Holds (scope.enter rule) (scope'.enter rule)

end SqlQuery
