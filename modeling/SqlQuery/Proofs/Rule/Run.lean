import SqlQuery.Proofs.Rule.Triple
import SqlQuery.Proofs.Written.Tokens

/-!
Running rules forward: what a rule gives on lexemes that are known. There is one law for each way in
which rules are put together.
-/

namespace SqlQuery

namespace Rule

variable {α β : Type} {ts mid rest : List Token} {t : Token}

/-- On these tokens the rule gives the result and leaves the rest. -/
def Gives (r : Rule α) (ts : List Token) (a : α) (rest : List Token) : Prop := r ts = .ok (a, rest)

/-- No token at the front satisfies the test. -/
def Lacks (p : Token → Bool) (ts : List Token) : Prop := ∀ t ∈ ts.head?, p t = false

namespace Gives

theorem bind {r : Rule α} {f : α → Rule β} {a : α} {b : β} (first : r.Gives ts a mid)
    (next : (f a).Gives mid b rest) : (r >>= f).Gives ts b rest :=
  bind_eq_ok.2 ⟨a, mid, first, next⟩

theorem ret (a : α) (ts : List Token) : (pure a : Rule α).Gives ts a ts := rfl

theorem map {r : Rule α} {a : α} (g : α → β) (h : r.Gives ts a rest) :
    (g <$> r).Gives ts (g a) rest :=
  bind (f := fun a => pure (g a)) h (ret _ _)

theorem iteTrue {c : Prop} [Decidable c] {r s : Rule α} {a : α} (yes : c) (h : r.Gives ts a rest) :
    (if c then r else s).Gives ts a rest := by
  rwa [if_pos yes]

theorem iteFalse {c : Prop} [Decidable c] {r s : Rule α} {a : α} (no : ¬ c)
    (h : s.Gives ts a rest) : (if c then r else s).Gives ts a rest := by
  rwa [if_neg no]

/-- The branch that a test chooses. -/
theorem yes {found : Rule Bool} {r s : Rule α} {a : α} (test : found.Gives ts true mid)
    (h : r.Gives mid a rest) : (found >>= fun b => if b then r else s).Gives ts a rest :=
  test.bind (iteTrue rfl h)

theorem no {found : Rule Bool} {r s : Rule α} {a : α} (test : found.Gives ts false mid)
    (h : s.Gives mid a rest) : (found >>= fun b => if b then r else s).Gives ts a rest :=
  test.bind (iteFalse (by decide) h)

theorem peek (ts : List Token) : Rule.peek.Gives ts ts.head? ts := rfl

theorem look (n : Nat) (p : Token → Bool) (ts : List Token) :
    (Rule.look n p).Gives ts (ts[n]?.any p) ts := rfl

theorem look_false {p : Token → Bool} (h : Lacks p ts) : (Rule.look 0 p).Gives ts false ts := by
  have none : ts[0]?.any p = false := by
    rw [← List.head?_eq_getElem?]
    cases head : ts.head? with
    | none => rfl
    | some t => exact h t head
  rw [← none]
  exact look 0 p ts

theorem look_true {p : Token → Bool} (h : p t = true) :
    (Rule.look 0 p).Gives (t :: ts) true (t :: ts) := by
  have found : (t :: ts)[0]?.any p = true := h
  rw [← found]
  exact look 0 p (t :: ts)

theorem skip (t : Token) (ts : List Token) : Rule.skip.Gives (t :: ts) () ts := rfl

theorem accept_some {f : Token → Option α} {a : α} (h : f t = some a) :
    (accept f).Gives (t :: ts) (some a) ts := by
  simp [Gives, accept, h]

theorem accept_none {f : Token → Option α} (h : ∀ t ∈ ts.head?, f t = none) :
    (accept f).Gives ts none ts := by
  have none : ts.head?.bind f = none := by
    cases head : ts.head? with
    | none => rfl
    | some t => exact h t head
  simp [Gives, accept, none]

theorem eat_true {p : Token → Bool} (h : p t = true) : (eat p).Gives (t :: ts) true ts :=
  map Option.isSome (accept_some (a := ()) (by simp [h]))

theorem eat_false {p : Token → Bool} (h : Lacks p ts) : (eat p).Gives ts false ts :=
  map Option.isSome (accept_none fun t head => by simp [h t head])

theorem expect {f : Token → Option α} {what : String} {a : α} (h : f t = some a) :
    (expect f what).Gives (t :: ts) a ts :=
  (accept_some h).bind (ret _ _)

theorem require {p : Token → Bool} {what : String} (h : p t = true) :
    (require p what).Gives (t :: ts) () ts :=
  expect (a := ()) (by simp [h])

theorem after_some {found : Rule Bool} {r : Rule α} {a : α} (mark : found.Gives ts true mid)
    (h : r.Gives mid a rest) : (after found r).Gives ts (some a) rest :=
  mark.bind (h.map some)

theorem after_none {found : Rule Bool} {r : Rule α} (mark : found.Gives ts false ts) :
    (after found r).Gives ts none ts :=
  mark.bind (ret _ _)

theorem enter {scope : Scope} {level : Level} {rule : Level → Rule α} {a : α}
    (inside : scope.inside = some level) (h : (rule level).Gives ts a rest) :
    (scope.enter rule).Gives ts a rest := by
  have run : rule level ts = .ok (a, rest) := h
  simp only [Gives, Scope.enter, inside, run]
  rfl

end Gives

/-- Where the rule succeeds on these tokens, it gives the result and leaves the rest. -/
def MayGive (r : Rule α) (ts : List Token) (a : α) (rest : List Token) : Prop :=
  ∀ a' rest', r ts = .ok (a', rest') → a' = a ∧ rest' = rest

theorem Gives.may {r : Rule α} {a : α} (h : r.Gives ts a rest) : r.MayGive ts a rest := by
  intro a' rest' ran
  cases ran.symm.trans h
  exact ⟨rfl, rfl⟩

namespace MayGive

theorem bind {r : Rule α} {f : α → Rule β} {a : α} {b : β} (first : r.MayGive ts a mid)
    (next : (f a).MayGive mid b rest) : (r >>= f).MayGive ts b rest := by
  intro b' rest' ran
  obtain ⟨a', mid', ran, ran'⟩ := bind_eq_ok.1 ran
  obtain ⟨rfl, rfl⟩ := first a' mid' ran
  exact next b' rest' ran'

theorem map {r : Rule α} {a : α} (g : α → β) (h : r.MayGive ts a rest) :
    (g <$> r).MayGive ts (g a) rest :=
  h.bind (f := fun a => pure (g a)) (Gives.ret _ _).may

theorem enter {scope : Scope} {rule : Level → Rule α} {a : α}
    (h : ∀ level, scope.inside = some level → (rule level).MayGive ts a rest) :
    (scope.enter rule).MayGive ts a rest := by
  intro a' rest' ran
  obtain ⟨level, inside, ran⟩ := enter_eq_ok ran
  exact h level inside a' rest' ran

theorem iteTrue {c : Prop} [Decidable c] {r s : Rule α} {a : α} (yes : c)
    (h : r.MayGive ts a rest) : (if c then r else s).MayGive ts a rest := by
  rwa [if_pos yes]

theorem iteFalse {c : Prop} [Decidable c] {r s : Rule α} {a : α} (no : ¬ c)
    (h : s.MayGive ts a rest) : (if c then r else s).MayGive ts a rest := by
  rwa [if_neg no]

end MayGive

/-- The rule gives these items one after another, each from some tokens, and then no other. -/
inductive Yielding (item : Rule (Option α)) : List Token → List α → List Token → Prop
  | done {ts : List Token} (none : item.Gives ts none ts) : Yielding item ts [] ts
  | step {ts mid rest : List Token} {a : α} {as : List α} (some : item.Gives ts (some a) mid)
      (shorter : mid.length < ts.length) (later : Yielding item mid as rest) :
      Yielding item ts (a :: as) rest

theorem Yielding.upTo {item : Rule (Option α)} {as : List α} (h : Yielding item ts as rest)
    (bound : List Token) (long : ts.length ≤ bound.length) :
    (upTo item bound).Gives ts as rest := by
  induction h generalizing bound with
  | @done ts none =>
    cases bound with
    | nil => exact Gives.ret [] ts
    | cons t bound => exact none.bind (Gives.ret [] _)
  | step some shorter _ ih =>
    cases bound with
    | nil =>
      simp only [List.length_nil] at long
      omega
    | cons t bound =>
      simp only [List.length_cons] at long
      exact some.bind ((ih bound (by omega)).bind (Gives.ret _ _))

theorem Yielding.many {item : Rule (Option α)} {as : List α} (h : Yielding item ts as rest) :
    (many item).Gives ts as rest :=
  h.upTo ts (Nat.le_refl _)

/-- Items that are each written as some tokens, before tokens that may follow every one of them. -/
theorem Yielding.of_each {item : Rule (Option α)} {f : α → List Token}
    (Follow : List Token → Prop) {as : List α} (written : ∀ a ∈ as, f a ≠ [])
    (each : ∀ a ∈ as, ∀ rest, Follow rest → item.Gives (f a ++ rest) (some a) rest)
    (next : ∀ a ∈ as, ∀ rest, Follow (f a ++ rest)) (follow : Follow rest)
    (ended : item.Gives rest none rest) : Yielding item (as.flatMap f ++ rest) as rest := by
  induction as with
  | nil => exact .done ended
  | cons a as ih =>
    have later := ih (fun b mem => written b (List.mem_cons_of_mem a mem))
      (fun b mem => each b (List.mem_cons_of_mem a mem))
      (fun b mem => next b (List.mem_cons_of_mem a mem))
    have here : item.Gives (f a ++ (as.flatMap f ++ rest)) (some a) (as.flatMap f ++ rest) := by
      refine each a List.mem_cons_self _ ?_
      cases as with
      | nil => exact follow
      | cons b as =>
        rw [List.flatMap_cons, List.append_assoc]
        exact next b (by simp) _
    rw [List.flatMap_cons, List.append_assoc]
    refine .step here ?_ later
    have taken := List.length_pos_iff.2 (written a List.mem_cons_self)
    simp only [List.length_append]
    omega

/-- A list whose items are each written as some tokens, with commas between them. -/
theorem Gives.commaList {item : Rule α} {f : α → List Token} (Follow : List Token → Prop)
    {as : List α} (some : as ≠ [])
    (each : ∀ a ∈ as, ∀ rest, Follow rest → item.Gives (f a ++ rest) a rest)
    (comma : ∀ rest, Follow (commaToken :: rest)) (follow : Follow rest)
    (ended : Lacks (isKind .comma) rest) :
    (commaList item).Gives (commaTokens (as.map f) ++ rest) as rest := by
  cases as with
  | nil => exact absurd rfl some
  | cons a as =>
    have others : Yielding (after (eatKind .comma) item)
        (as.flatMap (fun b => commaToken :: f b) ++ rest) as rest := by
      refine Yielding.of_each Follow (by simp) ?_ ?_ follow ?_
      · intro b mem rest follow
        exact after_some (eat_true rfl) (each b (List.mem_cons_of_mem a mem) rest follow)
      · intro b mem rest
        exact comma _
      · exact after_none (eat_false ended)
    have first : item.Gives (f a ++ (as.flatMap (fun b => commaToken :: f b) ++ rest)) a
        (as.flatMap (fun b => commaToken :: f b) ++ rest) := by
      refine each a List.mem_cons_self _ ?_
      cases as with
      | nil => exact follow
      | cons b as => exact comma _
    have tokens : commaTokens ((a :: as).map f) ++ rest =
        f a ++ (as.flatMap (fun b => commaToken :: f b) ++ rest) := by
      simp [commaTokens, List.flatMap_map]
    rw [tokens]
    exact first.bind (others.many.bind (ret _ _))

end Rule

end SqlQuery
