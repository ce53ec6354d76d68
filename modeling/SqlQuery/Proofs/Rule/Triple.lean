import SqlQuery.Grammar.Rule

/-!
What holds of the tokens before a rule and, if it succeeds, of its result and the tokens it
leaves. There is one law for each way in which rules are put together.
-/

namespace SqlQuery.Rule

variable {α β : Type}

/-- If `P` holds of the tokens and the rule succeeds, `Q` holds of what it gives and leaves. -/
def Triple (P : List Token → Prop) (r : Rule α) (Q : α → List Token → Prop) : Prop :=
  ∀ ts a rest, P ts → r ts = .ok (a, rest) → Q a rest

theorem bind_eq_ok {r : Rule α} {f : α → Rule β} {ts rest : List Token} {b : β} :
    (r >>= f) ts = .ok (b, rest) ↔ ∃ a mid, r ts = .ok (a, mid) ∧ f a mid = .ok (b, rest) := by
  simp only [bind, StateT.bind, Except.bind]
  cases r ts with
  | error stop => simp
  | ok result =>
    constructor
    · intro h
      exact ⟨result.1, result.2, rfl, h⟩
    · rintro ⟨a, mid, same, h⟩
      cases same
      exact h

theorem map_eq_bind (g : α → β) (r : Rule α) : g <$> r = r >>= fun a => pure (g a) := rfl

theorem pure_eq_ok {a b : α} {ts rest : List Token} :
    (pure a : Rule α) ts = .ok (b, rest) ↔ b = a ∧ rest = ts := by
  constructor
  · intro h
    cases h
    exact ⟨rfl, rfl⟩
  · rintro ⟨rfl, rfl⟩
    rfl

theorem fail_ne_ok {what : String} {ts rest : List Token} {a : α} :
    (fail what : Rule α) ts ≠ .ok (a, rest) := by
  intro h
  cases h

theorem enter_eq_ok {scope : Scope} {rule : Level → Rule α} {ts rest : List Token} {a : α}
    (run : scope.enter rule ts = .ok (a, rest)) :
    ∃ level, scope.inside = some level ∧ rule level ts = .ok (a, rest) := by
  unfold Scope.enter at run
  split at run
  case h_1 => cases run
  case h_2 level inside =>
    refine ⟨level, inside, ?_⟩
    cases ran : rule level ts with
    | error stop =>
      rw [ran] at run
      cases run
    | ok result =>
      rw [ran] at run
      exact run

namespace Triple

variable {P P' : List Token → Prop} {Q Q' : α → List Token → Prop} {r : Rule α}

theorem weaken (h : Triple P r Q) (before : ∀ ts, P' ts → P ts) (result : ∀ a ts, Q a ts → Q' a ts) :
    Triple P' r Q' := by
  intro ts a rest hp run
  exact result a rest (h ts a rest (before ts hp) run)

theorem post (h : Triple P r Q) (result : ∀ a ts, Q a ts → Q' a ts) : Triple P r Q' :=
  h.weaken (fun _ hp => hp) result

theorem pre (h : Triple P r Q) (before : ∀ ts, P' ts → P ts) : Triple P' r Q :=
  h.weaken before fun _ _ hq => hq

theorem ret {a : α} (h : ∀ ts, P ts → Q a ts) : Triple P (pure a) Q := by
  intro ts b rest hp run
  obtain ⟨rfl, rfl⟩ := pure_eq_ok.1 run
  exact h _ hp

theorem bind {f : α → Rule β} {S : β → List Token → Prop} (first : Triple P r Q)
    (next : ∀ a, Triple (Q a) (f a) S) : Triple P (r >>= f) S := by
  intro ts b rest hp run
  obtain ⟨a, mid, ran, ran'⟩ := bind_eq_ok.1 run
  exact next a mid b rest (first ts a mid hp ran) ran'

theorem map {g : α → β} {S : β → List Token → Prop} (h : Triple P r fun a => S (g a)) :
    Triple P (g <$> r) S :=
  h.bind fun _ => ret fun _ hq => hq

theorem ite {c : Prop} [Decidable c] {s : Rule α} (yes : c → Triple P r Q)
    (no : ¬ c → Triple P s Q) : Triple P (if c then r else s) Q := by
  by_cases h : c
  · rw [if_pos h]
    exact yes h
  · rw [if_neg h]
    exact no h

theorem vacuous : Triple (fun _ => False) r Q := fun _ _ _ none _ => none.elim

theorem fail {what : String} : Triple P (fail what) Q := by
  intro ts a rest _ run
  exact absurd run fail_ne_ok

theorem stop {cause : Cause} : Triple P (stop cause) Q := by
  intro ts a rest _ run
  cases run

theorem peek {Q : Option Token → List Token → Prop} (h : ∀ ts, P ts → Q ts.head? ts) :
    Triple P peek Q := by
  intro ts a rest hp run
  cases run
  exact h _ hp

theorem look {n : Nat} {p : Token → Bool} {Q : Bool → List Token → Prop}
    (h : ∀ ts, P ts → Q (ts[n]?.any p) ts) : Triple P (look n p) Q := by
  intro ts a rest hp run
  cases run
  exact h _ hp

theorem look_keep {n : Nat} {p : Token → Bool} : Triple P (Rule.look n p) fun _ => P :=
  look fun _ hp => hp

theorem skip {Q : Unit → List Token → Prop} (h : ∀ ts, P ts → Q () ts.tail) : Triple P skip Q := by
  intro ts a rest hp run
  cases run
  exact h _ hp

theorem accept {f : Token → Option α} {Q : Option α → List Token → Prop}
    (found : ∀ t ts a, P (t :: ts) → f t = some a → Q (some a) ts)
    (missing : ∀ ts, P ts → ts.head?.bind f = none → Q none ts) : Triple P (accept f) Q := by
  intro ts o rest hp run
  unfold Rule.accept at run
  split at run
  case h_1 none =>
    cases run
    exact missing _ hp none
  case h_2 a some =>
    cases run
    obtain ⟨t, head, accepted⟩ := Option.bind_eq_some_iff.1 some
    obtain ⟨ts', rfl⟩ := List.head?_eq_some_iff.1 head
    exact found t ts' a hp accepted

theorem eat {p : Token → Bool} {Q : Bool → List Token → Prop}
    (found : ∀ t ts, P (t :: ts) → p t = true → Q true ts)
    (missing : ∀ ts, P ts → (∀ t ∈ ts.head?, p t = false) → Q false ts) : Triple P (eat p) Q := by
  refine Triple.map (Triple.accept ?_ ?_)
  · intro t ts a hp accepted
    by_cases h : p t = true
    · exact found t ts hp h
    · simp [h] at accepted
  · intro ts hp none
    refine missing ts hp ?_
    intro t head
    simpa [Option.mem_def.1 head] using none

theorem expect {f : Token → Option α} {what : String}
    (found : ∀ t ts a, P (t :: ts) → f t = some a → Q a ts) : Triple P (expect f what) Q := by
  refine Triple.bind
    (Triple.accept (Q := fun o ts => ∀ a, o = some a → Q a ts) ?_ ?_) ?_
  · intro t ts a hp accepted b same
    cases same
    exact found t ts a hp accepted
  · intro ts _ _ b same
    cases same
  · intro o
    cases o with
    | none => exact Triple.fail
    | some a => exact ret fun ts h => h a rfl

theorem require {p : Token → Bool} {what : String} {Q : Unit → List Token → Prop}
    (found : ∀ t ts, P (t :: ts) → p t = true → Q () ts) : Triple P (require p what) Q := by
  refine Triple.expect ?_
  intro t ts a hp accepted
  by_cases h : p t = true
  · exact found t ts hp h
  · simp [h] at accepted

/-- The invariant speaks of the items read so far. -/
theorem upTo {item : Rule (Option α)} {I : List α → List Token → Prop}
    (step : ∀ as, Triple (I as) item fun o => I (as ++ o.toList)) (bound : List Token)
    (as : List α) : Triple (I as) (upTo item bound) fun bs => I (as ++ bs) := by
  induction bound generalizing as with
  | nil => exact ret fun ts h => by simpa using h
  | cons t bound ih =>
    refine (step as).bind ?_
    intro o
    cases o with
    | none => exact ret fun ts h => by simpa using h
    | some a =>
      refine (ih (as ++ [a])).bind ?_
      intro bs
      exact ret fun ts h => by simpa using h

theorem many {item : Rule (Option α)} {I : List α → List Token → Prop}
    (step : ∀ as, Triple (I as) item fun o => I (as ++ o.toList)) :
    Triple (I []) (many item) I := by
  intro ts as rest hp run
  exact upTo step ts [] ts as rest hp run

theorem after {mark : Rule Bool} {Q : Option α → List Token → Prop} {R : List Token → Prop}
    (marked : Triple P mark fun b ts => if b then R ts else Q none ts)
    (item : Triple R r fun a => Q (some a)) : Triple P (after mark r) Q := by
  refine marked.bind ?_
  intro b
  cases b with
  | true => exact item.map
  | false => exact ret fun ts h => h

theorem commaList {I : List α → List Token → Prop} (first : Triple P r fun a => I [a])
    (comma : ∀ as t ts, t.kind = .comma → I as (t :: ts) → I as ts)
    (next : ∀ as, Triple (I as) r fun a => I (as ++ [a])) : Triple P (commaList r) I := by
  refine first.bind ?_
  intro a
  refine Triple.bind (Triple.many (I := fun as => I (a :: as)) ?_) ?_
  · intro as
    refine Triple.after (R := I (a :: as)) (Triple.eat ?_ ?_) ?_
    · intro t ts hp isComma
      exact comma _ t ts (by simpa [isKind] using isComma) hp
    · intro ts hp _
      simpa using hp
    · exact (next (a :: as)).post fun b ts h => by simpa using h
  · intro as
    exact ret fun ts h => h

theorem enter {scope : Scope} {rule : Level → Rule α}
    (h : ∀ level, scope.inside = some level → Triple P (rule level) Q) :
    Triple P (scope.enter rule) Q := by
  intro ts a rest hp run
  obtain ⟨level, inside, ran⟩ := enter_eq_ok run
  exact h level inside ts a rest hp ran

end Triple

end SqlQuery.Rule
