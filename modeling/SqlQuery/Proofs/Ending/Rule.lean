import SqlQuery.Proofs.Rule.Gets
import SqlQuery.Proofs.Scanning.Symbol

/-!
Rules by the last token that they take: after some tokens no operand can come next and no star stands
for all columns. There is one law for each way in which rules are put together.
-/

namespace SqlQuery.Rule

variable {α β : Type} {T : Token → Prop}

/-- Some tokens are taken, and the last of them closes an operand. -/
def TakesClosed (ts rest : List Token) : Prop :=
  ∃ before last, ts = before ++ last :: rest ∧ last.closes = true

/-- The rule takes tokens, and the last of them closes an operand. -/
def Finishes (T : Token → Prop) (r : Rule α) : Prop :=
  ∀ ts a rest, (∀ t ∈ ts, T t) → r ts = .ok (a, rest) → TakesClosed ts rest

/-- The rule takes no token, or the last one that it takes closes an operand. -/
def MayFinish (T : Token → Prop) (r : Rule α) : Prop :=
  ∀ ts a rest, (∀ t ∈ ts, T t) → r ts = .ok (a, rest) → rest = ts ∨ TakesClosed ts rest

namespace TakesClosed

variable {ts mid rest : List Token}

theorem head {t : Token} (h : t.closes = true) : TakesClosed (t :: ts) ts := ⟨[], t, rfl, h⟩

theorem suffix (h : TakesClosed ts rest) : rest <:+ ts := by
  obtain ⟨before, last, rfl, _⟩ := h
  exact ⟨before ++ [last], by simp⟩

/-- What is taken before does not matter. -/
theorem of_suffix (left : mid <:+ ts) (h : TakesClosed mid rest) : TakesClosed ts rest := by
  obtain ⟨front, rfl⟩ := left
  obtain ⟨before, last, rfl, closes⟩ := h
  exact ⟨front ++ before, last, by simp, closes⟩

theorem mayFinish (first : mid = ts ∨ TakesClosed ts mid) (next : rest = mid ∨ TakesClosed mid rest) :
    rest = ts ∨ TakesClosed ts rest := by
  rcases first with rfl | first
  · exact next
  · rcases next with rfl | next
    · exact .inr first
    · exact .inr (next.of_suffix first.suffix)

end TakesClosed

theorem accept_eq_none {f : Token → Option α} {ts rest : List Token}
    (run : accept f ts = .ok (none, rest)) : rest = ts := by
  unfold accept at run
  split at run <;> cases run
  rfl

namespace MayFinish

variable {r : Rule α}

theorem ret {a : α} : MayFinish T (pure a : Rule α) := fun _ _ _ _ run => .inl (pure_eq_ok.1 run).2

theorem bind {f : α → Rule β} (first : MayFinish T r) (next : ∀ a, MayFinish T (f a)) :
    MayFinish T (r >>= f) := by
  intro ts b rest all run
  obtain ⟨a, mid, ran, ran'⟩ := bind_eq_ok.1 run
  have taken := first ts a mid all ran
  have left : mid <:+ ts := taken.elim (fun same => same ▸ List.suffix_refl _) TakesClosed.suffix
  exact TakesClosed.mayFinish taken (next a mid b rest (all_suffix all left) ran')

theorem ite {c : Prop} [Decidable c] {s : Rule α} (yes : MayFinish T r) (no : MayFinish T s) :
    MayFinish T (if c then r else s) := by
  split
  · exact yes
  · exact no

theorem look (n : Nat) (p : Token → Bool) : MayFinish T (look n p) := by
  intro ts a rest _ run
  cases run
  exact .inl rfl

theorem accept {f : Token → Option α} (closes : ∀ t a, T t → f t = some a → t.closes = true) :
    MayFinish T (accept f) := by
  intro ts o rest all run
  cases o with
  | none => exact .inl (accept_eq_none run)
  | some a =>
    obtain ⟨t, rfl, accepted⟩ := accept_eq_some run
    exact .inr (.head (closes t a (all t List.mem_cons_self) accepted))

theorem eat {p : Token → Bool} (closes : ∀ t, T t → p t = true → t.closes = true) :
    MayFinish T (eat p) := by
  intro ts found rest all run
  rcases eat_eq_ok run with ⟨_, same⟩ | ⟨_, t, rfl, passes⟩
  · exact .inl same
  · exact .inr (.head (closes t (all t List.mem_cons_self) passes))

theorem many {item : Rule (Option α)} (h : MayFinish T item) : MayFinish T (many item) := by
  have general (bound : List Token) : MayFinish T (upTo item bound) := by
    induction bound with
    | nil => exact ret
    | cons t bound ih =>
      refine h.bind fun o => ?_
      cases o with
      | none => exact ret
      | some a => exact ih.bind fun _ => ret
  exact fun ts => general ts ts

end MayFinish

namespace Finishes

variable {r : Rule α}

theorem mayFinish (h : Finishes T r) : MayFinish T r :=
  fun ts a rest all run => .inr (h ts a rest all run)

theorem fail {what : String} : Finishes T (fail what : Rule α) :=
  fun _ _ _ _ run => absurd run fail_ne_ok

/-- A rule that is followed by another one, which may take no token. -/
theorem bind {f : α → Rule β} (first : Finishes T r) (next : ∀ a, MayFinish T (f a)) :
    Finishes T (r >>= f) := by
  intro ts b rest all run
  obtain ⟨a, mid, ran, ran'⟩ := bind_eq_ok.1 run
  have taken := first ts a mid all ran
  rcases next a mid b rest (all_suffix all taken.suffix) ran' with rfl | later
  · exact taken
  · exact later.of_suffix taken.suffix

/-- A rule that comes after any other one. -/
theorem last {f : α → Rule β} {Q : α → Prop} (first : Makes T r Q) (next : ∀ a, Finishes T (f a)) :
    Finishes T (r >>= f) := by
  intro ts b rest all run
  obtain ⟨a, mid, ran, ran'⟩ := bind_eq_ok.1 run
  obtain ⟨left, _⟩ := first ts a mid all trivial ran
  exact .of_suffix left (next a mid b rest (all_suffix all left) ran')

theorem map {g : α → β} (h : Finishes T r) : Finishes T (g <$> r) := h.bind fun _ => .ret

theorem ite {c : Prop} [Decidable c] {s : Rule α} (yes : c → Finishes T r) (no : ¬ c → Finishes T s) :
    Finishes T (if c then r else s) := by
  split
  · exact yes ‹_›
  · exact no ‹_›

theorem choose {test : Rule Bool} {s : Rule α} {Q : Bool → Prop} (tested : Makes T test Q)
    (yes : Finishes T r) (no : Finishes T s) : Finishes T (test >>= fun b => if b then r else s) :=
  last tested fun _ => ite (fun _ => yes) fun _ => no

theorem expect {f : Token → Option α} {what : String}
    (closes : ∀ t a, T t → f t = some a → t.closes = true) : Finishes T (expect f what) := by
  intro ts a rest all run
  obtain ⟨o, mid, ran, last⟩ := bind_eq_ok.1 run
  cases o with
  | none => exact absurd last fail_ne_ok
  | some b =>
    obtain ⟨_, rfl⟩ := pure_eq_ok.1 last
    obtain ⟨t, rfl, accepted⟩ := accept_eq_some ran
    exact .head (closes t b (all t List.mem_cons_self) accepted)

theorem require {p : Token → Bool} {what : String}
    (closes : ∀ t, T t → p t = true → t.closes = true) : Finishes T (require p what) := by
  exact expect fun t a known accepted => closes t known (by simpa using accepted)

theorem enter {scope : Scope} {rule : Level → Rule α}
    (h : ∀ level, scope.inside = some level → Finishes T (rule level)) :
    Finishes T (scope.enter rule) := by
  intro ts a rest all run
  obtain ⟨level, inside, ran⟩ := enter_eq_ok run
  exact h level inside ts a rest all ran

end Finishes

namespace MayFinish

variable {r s : Rule α} {p : Token → Bool}

/-- A mark closes nothing, but what stands behind it does. -/
theorem behind (marked : Finishes T r) (unmarked : MayFinish T s) :
    MayFinish T (Rule.eat p >>= fun found => if found then r else s) := by
  intro ts a rest all run
  obtain ⟨found, mid, ate, next⟩ := bind_eq_ok.1 run
  rcases eat_eq_ok ate with ⟨rfl, rfl⟩ | ⟨rfl, t, rfl, _⟩
  · exact unmarked mid a rest all next
  · have left : mid <:+ t :: mid := List.suffix_cons t mid
    exact .inr (.of_suffix left (marked mid a rest (all_suffix all left) next))

theorem after (item : Finishes T r) : MayFinish T (after (Rule.eat p) r) := behind item.map ret

end MayFinish

end SqlQuery.Rule
