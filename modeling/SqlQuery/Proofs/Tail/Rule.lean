import SqlQuery.Proofs.Reading.Token
import SqlQuery.Proofs.Rule.Agreement
import SqlQuery.Proofs.Rule.Run
import SqlQuery.Proofs.Tail.Place

/-!
One rule on two lists of tokens that differ in their tails. Before the tails the two runs do the
same. One rule may read a tail up to where the lists are the same again, and what it makes differs
then, as does what is made of that.
-/

namespace SqlQuery

open Rule

variable {α β γ : Type}

/-- What a tail begins with. Only an operator after an operand and the end of a statement take any of
these. -/
def tailHeads : List Token := [semicolon, ⟨.command, "in"⟩, ⟨.command, "not in"⟩]

/-- Of two results one is an error only if the other is, as far as that is asked, and the relation
holds of what they are otherwise. -/
inductive Compares (strict : Prop) (Q : γ → γ → Prop) : Except Stop γ → Except Stop γ → Prop
  | ok {c c' : γ} : Q c c' → Compares strict Q (.ok c) (.ok c')
  | error {e e' : Stop} : Compares strict Q (.error e) (.error e')
  | left {c : γ} {e : Stop} : ¬strict → Compares strict Q (.ok c) (.error e)
  | right {c : γ} {e : Stop} : ¬strict → Compares strict Q (.error e) (.ok c)

namespace Compares

variable {strict : Prop} {P Q : γ → γ → Prop} {o o' : Except Stop γ}

theorem mono (h : Compares strict P o o') (weaker : ∀ c c', P c c' → Q c c') :
    Compares strict Q o o' := by
  cases h with
  | ok h => exact .ok (weaker _ _ h)
  | error => exact .error
  | left lax => exact .left lax
  | right lax => exact .right lax

theorem mapError {f f' : Stop → Stop} (h : Compares strict Q o o') :
    Compares strict Q (o.mapError f) (o'.mapError f') := by
  cases h with
  | ok h => exact .ok h
  | error => exact .error
  | left lax => exact .left lax
  | right lax => exact .right lax

theorem bind {δ : Type} {S : δ → δ → Prop} {f f' : γ → Except Stop δ} (h : Compares strict Q o o')
    (next : ∀ c c', o = .ok c → Q c c' → Compares strict S (f c) (f' c')) :
    Compares strict S (o >>= f) (o' >>= f') := by
  cases h with
  | ok h => exact next _ _ rfl h
  | error => exact .error
  | @left c e lax =>
    change Compares strict S (f c) (.error e)
    cases f c with
    | ok d => exact .left lax
    | error e' => exact .error
  | @right c e lax =>
    change Compares strict S (.error e) (f' c)
    cases f' c with
    | ok d => exact .right lax
    | error e' => exact .error

end Compares

/-- Two tails of tokens, and what is asked of two runs that read them. -/
structure Tails where
  left : List Token
  right : List Token
  left_head : ∀ t ∈ left.head?, t ∈ tailHeads
  right_head : ∀ t ∈ right.head?, t ∈ tailHeads
  look : ∀ n ≤ 1, ∀ p : Token → Bool, p semicolon = false → left[n]?.any p = right[n]?.any p
  /-- Whether it is asked that one run succeeds only if the other does. -/
  strict : Prop
  /-- What two results are at the place where they differ. -/
  site : Json → Json → Prop

namespace Tails

variable (T : Tails)

theorem shortens_of_agreement {r : Rule α} (h : (agreement False).Holds r r) : Shortens r :=
  ((agreement False).shortens h).1

/-- What two runs make and leave: the same before the tails, or results that differ and the same
tokens past them. -/
inductive Alike (D : α → α → Prop) : α × List Token → α × List Token → Prop
  | before (a : α) (b : List Token) : Alike D (a, b ++ T.left) (a, b ++ T.right)
  | past {a a' : α} (rest : List Token) : D a a' → Alike D (a, rest) (a', rest)

/-- After these tokens the rule makes the same of the two tails, or what differs by `D`. -/
def SwapsAt (D : α → α → Prop) (r : Rule α) (b : List Token) : Prop :=
  Compares T.strict (T.Alike D) (r (b ++ T.left)) (r (b ++ T.right))

def Swaps (D : α → α → Prop) (r : Rule α) : Prop := ∀ b, T.SwapsAt D r b

/-- What two runs make and leave that begin with the same tokens, past the tails. -/
inductive Past (E : α → α → Prop) : α × List Token → α × List Token → Prop
  | mk {a a' : α} (rest : List Token) : E a a' → Past E (a, rest) (a', rest)

/-- Two rules that go on with different results, past the tails. -/
def CarriesAt (E : α → α → Prop) (r r' : Rule α) (ts : List Token) : Prop :=
  Compares T.strict (Past E) (r ts) (r' ts)

def Carries (E : α → α → Prop) (r r' : Rule α) : Prop := ∀ ts, T.CarriesAt E r r' ts

/-- Nothing differs. -/
def Same (_ _ : α) : Prop := False

/-- The JSON forms differ in one place as they may. -/
abbrev At (f : α → Json) : α → α → Prop := DiffersIn T.site f

variable {T} {D : α → α → Prop} {E : β → β → Prop} {b : List Token}

/-- After a rule that gives what is known. -/
theorem CarriesAt.of_gives {r : Rule γ} {f f' : γ → Rule α} {ts mid : List Token} {c : γ}
    (first : r.Gives ts c mid) (next : T.CarriesAt D (f c) (f' c) mid) :
    T.CarriesAt D (r >>= f) (r >>= f') ts := by
  have ran : r ts = .ok (c, mid) := first
  unfold CarriesAt at next ⊢
  simpa only [Bind.bind, StateT.bind, Except.bind, ran] using next

theorem CarriesAt.bind {r r' : Rule α} {f f' : α → Rule β} {ts : List Token}
    (first : T.CarriesAt D r r' ts) (next : ∀ a a', D a a' → T.Carries E (f a) (f' a')) :
    T.CarriesAt E (r >>= f) (r' >>= f') ts :=
  Compares.bind first fun _ _ _ ⟨rest, differ⟩ => next _ _ differ rest

namespace Carries

theorem ret {a a' : α} (h : D a a') : T.Carries D (pure a) (pure a') := fun ts => .ok (.mk ts h)

theorem fail (what : String) : T.Carries D (Rule.fail what) (Rule.fail what) := fun _ => .error

theorem bind {r : Rule γ} {f f' : γ → Rule α} (h : ∀ c, T.Carries D (f c) (f' c)) :
    T.Carries D (r >>= f) (r >>= f') := by
  intro ts
  unfold CarriesAt
  simp only [Bind.bind, StateT.bind]
  cases r ts with
  | error e => exact .error
  | ok result => exact h result.1 result.2

theorem map {r : Rule γ} {g g' : γ → α} (h : ∀ c, D (g c) (g' c)) :
    T.Carries D (g <$> r) (g' <$> r) :=
  bind fun c => ret (h c)

theorem ite {c : Prop} [Decidable c] {r r' s s' : Rule α} (yes : T.Carries D r r')
    (no : T.Carries D s s') : T.Carries D (if c then r else s) (if c then r' else s') := by
  by_cases h : c
  · rwa [if_pos h, if_pos h]
  · rwa [if_neg h, if_neg h]

end Carries

namespace SwapsAt

theorem bind {r : Rule α} {f : α → Rule β} (first : T.SwapsAt D r b)
    (next : ∀ a, T.Swaps E (f a)) (carry : ∀ a a' rest, r (b ++ T.left) = .ok (a, rest) →
      D a a' → T.CarriesAt E (f a) (f a') rest) : T.SwapsAt E (r >>= f) b := by
  refine Compares.bind first fun c c' ran alike => ?_
  cases alike with
  | before a b => exact next a b
  | past rest differ =>
    refine (carry _ _ _ ran differ).mono fun _ _ same => ?_
    cases same with
    | mk rest differ => exact .past rest differ

theorem ite {c : Prop} [Decidable c] {r s : Rule α} (yes : T.SwapsAt D r b)
    (no : T.SwapsAt D s b) : T.SwapsAt D (if c then r else s) b := by
  by_cases h : c
  · rwa [if_pos h]
  · rwa [if_neg h]

/-- A test that no semicolon passes finds the same on both sides. -/
theorem look_eq {n : Nat} {p : Token → Bool} (near : n ≤ 1) (silent : p semicolon = false) :
    (b ++ T.left)[n]?.any p = (b ++ T.right)[n]?.any p := by
  by_cases inside : n < b.length
  · rw [List.getElem?_append_left inside, List.getElem?_append_left inside]
  · have outside : b.length ≤ n := Nat.le_of_not_lt inside
    rw [List.getElem?_append_right outside, List.getElem?_append_right outside]
    exact T.look _ (Nat.le_trans (Nat.sub_le n b.length) near) p silent

theorem look {n : Nat} {p : Token → Bool} {f : Bool → Rule α} (near : n ≤ 1)
    (silent : p semicolon = false) (next : ∀ x, T.SwapsAt D (f x) b) :
    T.SwapsAt D (Rule.look n p >>= f) b := by
  have going := next ((b ++ T.left)[n]?.any p)
  unfold SwapsAt at going ⊢
  change Compares _ _ (f ((b ++ T.left)[n]?.any p) (b ++ T.left))
    (f ((b ++ T.right)[n]?.any p) (b ++ T.right))
  rwa [← look_eq near silent]

/-- What no tail begins with is not seen where they begin. -/
theorem look_tail {p : Token → Bool} {f : Bool → Rule α} (silent : ∀ t ∈ tailHeads, p t = false)
    (next : T.SwapsAt D (f false) b) : T.SwapsAt D (Rule.look b.length p >>= f) b := by
  have unseen {tail : List Token} (head : ∀ t ∈ tail.head?, t ∈ tailHeads) :
      (b ++ tail)[b.length]?.any p = false := by
    rw [List.getElem?_append_right (Nat.le_refl _), Nat.sub_self]
    cases tail with
    | nil => rfl
    | cons t tail => exact silent t (head t rfl)
  unfold SwapsAt at next ⊢
  change Compares _ _ (f ((b ++ T.left)[b.length]?.any p) _) (f ((b ++ T.right)[b.length]?.any p) _)
  rwa [unseen T.left_head, unseen T.right_head]

theorem accept_tail {f : Token → Option γ} {g : Option γ → Rule α}
    (silent : ∀ t ∈ tailHeads, f t = none) (next : T.SwapsAt D (g none) []) :
    T.SwapsAt D (Rule.accept f >>= g) [] := by
  have refused {tail : List Token} (head : ∀ t ∈ tail.head?, t ∈ tailHeads) :
      (Rule.accept f >>= g) tail = g none tail := by
    cases tail with
    | nil => rfl
    | cons t tail =>
      have none : f t = none := silent t (head t rfl)
      simp [Bind.bind, StateT.bind, Except.bind, Rule.accept, none]
  unfold SwapsAt at next ⊢
  rwa [List.nil_append, List.nil_append, refused T.left_head, refused T.right_head]

theorem skip {t : Token} {f : Unit → Rule α} (next : T.SwapsAt D (f ()) b) :
    T.SwapsAt D (Rule.skip >>= f) (t :: b) :=
  next

theorem accept_cons {t : Token} {f : Token → Option γ} {g : Option γ → Rule α}
    (found : ∀ c, f t = some c → T.SwapsAt D (g (some c)) b)
    (missing : f t = none → T.SwapsAt D (g none) (t :: b)) :
    T.SwapsAt D (Rule.accept f >>= g) (t :: b) := by
  have ran (tail : List Token) : (Rule.accept f >>= g) (t :: b ++ tail) =
      g (f t) (if (f t).isSome then b ++ tail else t :: b ++ tail) := by
    simp only [Bind.bind, StateT.bind, Rule.accept, List.cons_append, List.head?_cons,
      Option.bind_some, List.tail_cons]
    cases f t <;> rfl
  unfold SwapsAt
  rw [ran, ran]
  cases accepted : f t with
  | none => exact missing accepted
  | some c => exact found c accepted

theorem eat_cons {t : Token} {p : Token → Bool} {f : Bool → Rule α}
    (found : T.SwapsAt D (f true) b) (missing : T.SwapsAt D (f false) (t :: b)) :
    T.SwapsAt D (Rule.eat p >>= f) (t :: b) := by
  rw [Rule.eat, bind_map_left]
  exact accept_cons (fun _ _ => found) fun _ => missing

end SwapsAt

namespace Swaps

theorem ret (a : α) : T.Swaps D (pure a) := fun b => .ok (.before a b)

theorem fail (what : String) : T.Swaps D (Rule.fail what : Rule α) := fun _ => .error

theorem bind {r : Rule α} {f : α → Rule β} (first : T.Swaps D r) (next : ∀ a, T.Swaps E (f a))
    (carry : ∀ a a', D a a' → T.Carries E (f a) (f a')) : T.Swaps E (r >>= f) :=
  fun b => (first b).bind next fun a a' rest _ differ => carry a a' differ rest

/-- After a rule that makes the same of both tails. -/
theorem andThen {r : Rule α} {f : α → Rule β} (first : T.Swaps Same r)
    (next : ∀ a, T.Swaps E (f a)) : T.Swaps E (r >>= f) :=
  first.bind next fun _ _ differ => differ.elim

theorem map {r : Rule α} {g : α → β} (h : T.Swaps D r) (keep : ∀ a a', D a a' → E (g a) (g a')) :
    T.Swaps E (g <$> r) :=
  h.bind (fun a => ret (g a)) fun _ _ differ => .ret (keep _ _ differ)

theorem mapSame {r : Rule α} {g : α → β} (h : T.Swaps Same r) : T.Swaps E (g <$> r) :=
  h.map fun _ _ differ => differ.elim

theorem mono {E : α → α → Prop} {r : Rule α} (h : T.Swaps D r)
    (weaker : ∀ a a', D a a' → E a a') : T.Swaps E r := by
  refine fun b => (h b).mono fun _ _ alike => ?_
  cases alike with
  | before a b => exact .before a b
  | past rest differ => exact .past rest (weaker _ _ differ)

/-- Lists of what never differs do not differ. -/
theorem same {E : List α → List α → Prop} {r : Rule (List α)} (h : T.Swaps (OneOf Same) r) :
    T.Swaps E r :=
  h.mono fun _ _ differ => (differ.elim fun _ _ differ => differ).elim

theorem ite {c : Prop} [Decidable c] {r s : Rule α} (yes : T.Swaps D r) (no : T.Swaps D s) :
    T.Swaps D (if c then r else s) :=
  fun b => .ite (yes b) (no b)

theorem choose {test : Rule Bool} {r s : Rule α} (tested : T.Swaps Same test) (yes : T.Swaps D r)
    (no : T.Swaps D s) : T.Swaps D (test >>= fun c => if c then r else s) :=
  tested.andThen fun _ => ite yes no

theorem look {D : Bool → Bool → Prop} {n : Nat} {p : Token → Bool} (near : n ≤ 1)
    (silent : p semicolon = false) : T.Swaps D (Rule.look n p) :=
  fun _ => .look near silent fun x => ret x _

theorem accept {D : Option α → Option α → Prop} {f : Token → Option α}
    (silent : ∀ t ∈ tailHeads, f t = none) : T.Swaps D (Rule.accept f) := by
  intro b
  rw [← bind_pure (Rule.accept f)]
  cases b with
  | nil => exact .accept_tail silent (ret none [])
  | cons t b => exact .accept_cons (fun c _ => ret (some c) b) fun _ => ret none (t :: b)

theorem eat {D : Bool → Bool → Prop} {p : Token → Bool} (silent : ∀ t ∈ tailHeads, p t = false) :
    T.Swaps D (Rule.eat p) := by
  have none : ∀ t ∈ tailHeads, (if p t then some () else none) = none := by
    intro t mem
    simp [silent t mem]
  exact (accept none).mapSame

theorem expect {f : Token → Option α} {what : String} (silent : ∀ t ∈ tailHeads, f t = none) :
    T.Swaps D (Rule.expect f what) := by
  refine (accept silent).andThen fun o => ?_
  cases o with
  | none => exact fail what
  | some a => exact ret a

theorem require {D : Unit → Unit → Prop} {p : Token → Bool} {what : String}
    (silent : ∀ t ∈ tailHeads, p t = false) : T.Swaps D (Rule.require p what) :=
  expect fun t mem => by simp [silent t mem]

theorem after {mark : Rule Bool} {item : Rule α} (marked : T.Swaps Same mark) (h : T.Swaps D item) :
    T.Swaps (Found D) (Rule.after mark item) :=
  marked.choose (h.map fun _ _ => .mk) (ret none)

theorem upTo {item : Rule (Option α)} (h : T.Swaps (Found D) item) (bound : List Token) :
    T.Swaps (OneOf D) (Rule.upTo item bound) := by
  induction bound with
  | nil => exact ret []
  | cons t bound ih =>
    refine h.bind (fun o => ?_) fun _ _ differ => ?_
    · cases o with
      | none => exact ret []
      | some a => exact ih.map fun _ _ => .tail a
    · cases differ with
      | mk differ => exact .map fun as => .head as differ

/-- Two runs that are bounded by their tokens may be given one bound that is long enough for both. -/
theorem bounded {r : List Token → Rule α} (settled : Settled r) (h : ∀ bound, T.Swaps D (r bound)) :
    T.Swaps D fun ts => r ts ts := by
  intro b
  have both := h ((b ++ T.left) ++ (b ++ T.right)) b
  unfold SwapsAt at both ⊢
  rwa [settled _ (b ++ T.left) (b ++ T.left) (by simp) (Nat.le_refl _),
    settled _ (b ++ T.right) (b ++ T.right) (by simp; omega) (Nat.le_refl _)] at both

theorem many {item : Rule (Option α)} (h : T.Swaps (Found D) item) (taking : Takes item) :
    T.Swaps (OneOf D) (Rule.many item) := by
  have within := bounded (settled_upTo taking) h.upTo
  exact within

theorem many_after {p : Token → Bool} {item : Rule α} (silent : ∀ t ∈ tailHeads, p t = false)
    (h : T.Swaps D item) (short : Shortens item) :
    T.Swaps (OneOf D) (Rule.many (Rule.after (Rule.eat p) item)) :=
  many (after (eat silent) h) (.of_after short)

theorem commaList {item : Rule α} (h : T.Swaps D item) (short : Shortens item) :
    T.Swaps (OneOf D) (Rule.commaList item) := by
  refine h.bind (fun a => ?_) fun _ _ differ => .map fun as => .head as differ
  exact (many_after (by decide) h short).map fun _ _ => .tail a

theorem name {D : String → String → Prop} : T.Swaps D Rule.name := expect (by decide)

theorem nameList {D : List String → List String → Prop} : T.Swaps D Rule.nameList := by
  refine (require (by decide)).andThen fun _ => ?_
  refine (commaList name (shortens_of_agreement .name)).same.andThen fun names => ?_
  exact (require (by decide)).andThen fun _ => ret names

theorem columnNames {D : List String → List String → Prop} : T.Swaps D Rule.columnNames :=
  choose (look (Nat.zero_le 1) (by decide)) nameList (ret [])

theorem enter {scope : Scope} {rule : Level → Rule α}
    (h : ∀ level, scope.inside = some level → T.Swaps D (rule level)) :
    T.Swaps D (scope.enter rule) := by
  intro b
  unfold SwapsAt Scope.enter
  cases inside : scope.inside with
  | none => exact .error
  | some level => exact (h level inside b).mapError

end Swaps

end Tails

end SqlQuery
