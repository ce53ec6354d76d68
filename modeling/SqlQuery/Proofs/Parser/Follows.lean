import SqlQuery.Grammar.Session
import SqlQuery.Proofs.Rule.Agreement

/-!
A parser with a place and a counter follows a rule for the tokens that are left and the levels that
may still be opened. It looks at nothing else, and so it comes to the same: after as many lexemes, with
as many levels left open, and with an error for that place. One law for each way in which parsers are
put together.
-/

namespace SqlQuery

open Rule

variable {α β γ : Type}

namespace Session

/-- The session after so many more lexemes. -/
def skip (s : Session) (k : Nat) : Session := { s with index := min (s.index + k) s.lexemes.length }

/-- What the session says of a rule that gives up at the place it is at. -/
def errorAt (s : Session) : Cause → ParseError
  | .expected what => .unexpected s.index s.place what (s.next?.map (·.text))
  | .trailing => .trailing s.index s.place ((s.next?.map (·.text)).getD "")
  | .tooDeep => .tooDeep s.limit s.place

/-- What a parser comes to that follows a rule with this outcome after so many tokens. -/
def reached (s : Session) (k : Nat) : Outcome α → Except ParseError α × Session
  | .ok a => (.ok a, s.skip k)
  | .error (cause, raised) =>
    (.error ((s.skip k).errorAt cause), { s.skip k with depth := s.depth + raised })

/-- An open level leaves one less to be opened. -/
theorem allowance_deeper (s : Session) {n : Nat} (left : s.allowance = n + 1) :
    ({ s with depth := s.depth + 1 } : Session).allowance = n := by
  change s.limit - (s.depth + 1) = n
  simp only [allowance] at left
  omega

/-- The session stands at one of its lexemes or after the last one. -/
def Within (s : Session) : Prop := s.index ≤ s.lexemes.length

theorem rest_length (s : Session) : s.rest.length = s.remaining := by
  simp only [rest, Lexeme.tokens, List.length_map, List.length_drop, remaining]

theorem rest_getElem? (s : Session) (n : Nat) :
    s.rest[n]? = s.lexemes[s.index + n]?.map Lexeme.toToken := by
  simp only [rest, Lexeme.tokens, List.getElem?_map, List.getElem?_drop]

theorem rest_head? (s : Session) : s.rest.head? = s.next?.map Lexeme.toToken := by
  rw [List.head?_eq_getElem?, rest_getElem?]
  rfl

theorem skip_zero {s : Session} (within : s.Within) : s.skip 0 = s := by
  simp only [skip, Nat.add_zero, Nat.min_eq_left within]

theorem skip_within (s : Session) (k : Nat) : (s.skip k).Within := Nat.min_le_right _ _

theorem skip_skip (s : Session) (k k' : Nat) : (s.skip k).skip k' = s.skip (k + k') := by
  simp only [skip, Session.mk.injEq, true_and, and_true]
  omega

theorem reached_skip (s : Session) (k k' : Nat) (o : Outcome α) :
    (s.skip k).reached k' o = s.reached (k + k') o := by
  cases o with
  | ok a => simp only [reached, skip_skip]
  | error e => simp only [reached, skip_skip]; rfl

theorem rest_skip (s : Session) (k : Nat) : (s.skip k).rest = s.rest.drop k := by
  simp only [rest, skip, Lexeme.tokens, ← List.map_drop, List.drop_drop]
  rcases Nat.le_total (s.index + k) s.lexemes.length with le | le
  · rw [Nat.min_eq_left le]
  · rw [Nat.min_eq_right le, List.drop_length, List.drop_of_length_le le]

theorem indexOf_drop_rest {s : Session} (within : s.Within) (k : Nat) :
    s.indexOf (s.rest.drop k) = (s.skip k).index := by
  simp only [Within] at within
  simp only [indexOf, List.length_drop, rest_length, remaining, skip]
  omega

theorem errorOf_skip {s : Session} (within : s.Within) (k raised : Nat) (cause : Cause) :
    s.errorOf ⟨cause, s.rest.drop k, raised⟩ = (s.skip k).errorAt cause := by
  have index := indexOf_drop_rest within k
  have place : s.positionOf (s.rest.drop k) = (s.skip k).place := by
    rw [positionOf, index]
    rfl
  have found : found (s.rest.drop k) = (s.skip k).next?.map (·.text) := by
    rw [Session.found, ← rest_skip, rest_head?, Option.map_map]
    rfl
  cases cause <;> simp only [errorOf, errorAt, index, place, found]
  rfl

/-- A rule that takes so many tokens moves the session past as many lexemes. -/
theorem run_of_after {s : Session} {rule : Rule α} {o : Outcome α} {k : Nat} (within : s.Within)
    (ran : rule s.rest = o.after k s.rest) : s.run rule = s.reached k o := by
  cases o with
  | ok a =>
    simp only [run, ran, Outcome.after, indexOf_drop_rest within, reached]
    rfl
  | error e =>
    simp only [run, ran, Outcome.after, indexOf_drop_rest within, errorOf_skip within, reached]
    rfl

end Session

namespace Parser

theorem bind_ok {p : Parser α} {f : α → Parser β} {s s' : Session} {a : α}
    (ran : p s = (.ok a, s')) : (p >>= f) s = f a s' := by
  simp only [bind, ExceptT.bind, ExceptT.mk, StateT.bind, ran]
  rfl

theorem bind_error {p : Parser α} {f : α → Parser β} {s s' : Session} {e : ParseError}
    (ran : p s = (.error e, s')) : (p >>= f) s = (.error e, s') := by
  simp only [bind, ExceptT.bind, ExceptT.mk, StateT.bind, ran]
  rfl

/-- With so many calls nested at most, the parser comes to what the rule does that is meant for as many
levels as the session may still open. -/
def Follows (fuel : Nat) (p : Parser α) (rule : Nat → Rule α) : Prop :=
  ∀ s : Session, s.Within → s.allowance < fuel →
    ∃ (o : Outcome α) (k : Nat), rule s.allowance s.rest = o.after k s.rest ∧ p s = s.reached k o

namespace Follows

variable {fuel : Nat} {p : Parser α} {rule : Nat → Rule α}

theorem run_eq (h : Follows fuel p rule) {s : Session} (within : s.Within)
    (enough : s.allowance < fuel) : p s = s.run (rule s.allowance) := by
  obtain ⟨o, k, ran, same⟩ := h s within enough
  rw [same, Session.run_of_after within ran]

theorem ret (a : α) : Follows fuel (pure a) fun _ => pure a := by
  intro s within _
  refine ⟨.ok a, 0, rfl, ?_⟩
  rw [Session.reached, Session.skip_zero within]
  rfl

theorem fail (what : String) : Follows fuel (unexpected what : Parser α) fun _ => Rule.fail what := by
  intro s within _
  refine ⟨.error (.expected what, 0), 0, rfl, ?_⟩
  rw [Session.reached, Session.skip_zero within]
  rfl

theorem bind {f : α → Parser β} {next : α → Nat → Rule β} (first : Follows fuel p rule)
    (following : ∀ a, Follows fuel (f a) (next a)) :
    Follows fuel (p >>= f) fun n => rule n >>= fun a => next a n := by
  intro s within enough
  obtain ⟨o, k, ran, same⟩ := first s within enough
  cases o with
  | error e => exact ⟨.error e, k, bind_after_error ran, bind_error same⟩
  | ok a =>
    obtain ⟨o', k', ran', same'⟩ := following a (s.skip k) (s.skip_within k) enough
    rw [Session.rest_skip] at ran'
    refine ⟨o', k + k', bind_after_ok ran ran', ?_⟩
    rw [bind_ok same, same', Session.reached_skip]

theorem map (g : α → β) (h : Follows fuel p rule) :
    Follows fuel (p >>= fun a => pure (g a)) fun n => g <$> rule n :=
  h.bind fun a => ret (g a)

theorem ite {c : Prop} [Decidable c] {q : Parser α} {other : Nat → Rule α}
    (yes : Follows fuel p rule) (no : Follows fuel q other) :
    Follows fuel (if c then p else q) fun n => if c then rule n else other n := by
  by_cases h : c
  · simpa only [if_pos h] using yes
  · simpa only [if_neg h] using no

/-- What a test chooses between. -/
theorem choose {test : Parser Bool} {tested : Nat → Rule Bool} {q : Parser α} {other : Nat → Rule α}
    (same : Follows fuel test tested) (yes : Follows fuel p rule) (no : Follows fuel q other) :
    Follows fuel (test >>= fun b => if b then p else q) fun n =>
      tested n >>= fun b => if b then rule n else other n :=
  same.bind fun _ => ite yes no

/-- What looks at the lexemes that are left and stays where it is. -/
theorem still {look : Session → α} {seen : List Token → α} (same : ∀ s, look s = seen s.rest) :
    Follows fuel (fun s => (.ok (look s), s) : Parser α) fun _ ts => .ok (seen ts, ts) := by
  intro s within _
  refine ⟨.ok (seen s.rest), 0, rfl, ?_⟩
  simp only [Session.reached, Session.skip_zero within, same]

theorem look (n : Nat) (p : Token → Bool) : Follows fuel (Parser.look n p) fun _ => Rule.look n p := by
  apply still fun s => ?_
  rw [Session.rest_getElem?, Option.any_map]

theorem check (p : Token → Bool) : Follows fuel (Parser.check p) fun _ => Rule.look 0 p :=
  look 0 p

/-- A parser sees a lexeme where the rule sees its token, which is all the rule may ask of it. -/
theorem current_bind {f : Option Lexeme → Parser β} {next : Option Token → Nat → Rule β}
    (following : ∀ found, Follows fuel (f found) (next (found.map Lexeme.toToken))) :
    Follows fuel (current >>= f) fun n => Rule.peek >>= fun found => next found n := by
  intro s within enough
  have here : current s = (.ok s.next?, s) := rfl
  obtain ⟨o, k, ran, same⟩ := following s.next? s within enough
  rw [← Session.rest_head?] at ran
  exact ⟨o, k, ran, (bind_ok here).trans same⟩

theorem advance : Follows fuel Parser.advance fun _ => Rule.skip := by
  intro s within _
  refine ⟨.ok (), 1, by rw [Outcome.after, List.drop_one]; rfl, ?_⟩
  simp only [Session.Within] at within
  simp only [Parser.advance, Session.reached, Session.skip]
  split
  case isTrue lt => rw [Nat.min_eq_left (by omega)]
  case isFalse le =>
    have last : min (s.index + 1) s.lexemes.length = s.index := by omega
    rw [last]

theorem accept (f : Token → Option α) : Follows fuel (Parser.accept f) fun _ => Rule.accept f := by
  intro s within enough
  have seen : s.rest.head?.bind f = s.next?.bind fun l => f l := by
    rw [Session.rest_head?, Option.bind_map]
    rfl
  have here : current s = (.ok s.next?, s) := rfl
  simp only [Rule.accept, Parser.accept, bind_ok here, seen]
  cases s.next?.bind fun l => f l with
  | none => exact ret none s within enough
  | some a => exact (advance.bind fun _ => ret (some a)) s within enough

theorem congr {rule' : Nat → Rule α} (h : Follows fuel p rule) (same : ∀ n, rule n = rule' n) :
    Follows fuel p rule' := by
  obtain rfl : rule = rule' := funext same
  exact h

theorem eat (p : Token → Bool) : Follows fuel (Parser.eat p) fun _ => Rule.eat p := by
  have accepts : Parser.eat p =
      Parser.accept (fun t => if p t then some () else none) >>= fun found => pure found.isSome := by
    funext s
    have here : current s = (.ok s.next?, s) := rfl
    simp only [Parser.eat, Parser.check, Parser.accept, bind_assoc, pure_bind, bind_ok here]
    cases s.next? with
    | none => rfl
    | some l => cases accepted : p l.toToken <;> simp [accepted]
  rw [accepts]
  exact (accept _).map Option.isSome

theorem expect (f : Token → Option α) (what : String) :
    Follows fuel (Parser.expect f what) fun _ => Rule.expect f what := by
  apply (accept f).bind
  intro found
  cases found with
  | none => exact fail what
  | some a => exact ret a

theorem require (p : Token → Bool) (what : String) :
    Follows fuel (Parser.require p what) fun _ => Rule.require p what := by
  have eats : Rule.require p what = Rule.eat p >>= fun found =>
      if found then pure () else Rule.fail what := by
    rw [Rule.require, Rule.expect, Rule.eat, bind_map_left]
    congr 1
    funext found
    cases found <;> rfl
  rw [eats]
  exact (eat p).choose (ret ()) (fail what)

theorem after {mark : Parser Bool} {marked : Nat → Rule Bool} (first : Follows fuel mark marked)
    (item : Follows fuel p rule) :
    Follows fuel (Parser.after mark p) fun n => Rule.after (marked n) (rule n) :=
  first.choose (item.map some) (ret none)

theorem gatherUpTo {item : Parser (Option α)} {rule : Nat → Rule (Option α)}
    (h : Follows fuel item rule) (add : β → α → β) (bound : List Token) (b : β) :
    Follows fuel (Parser.gatherUpTo item add bound.length b) fun n =>
      List.foldl add b <$> Rule.upTo (rule n) bound := by
  induction bound generalizing b with
  | nil => exact (ret b).congr fun n => rfl
  | cons t bound ih =>
    have step : Follows fuel (Parser.gatherUpTo item add (t :: bound).length b) fun n => rule n >>=
        fun found => found.elim (pure b) fun a =>
          List.foldl add (add b a) <$> Rule.upTo (rule n) bound := by
      apply h.bind
      intro found
      cases found with
      | none => exact ret b
      | some a => exact ih (add b a)
    apply step.congr
    intro n
    rw [Rule.upTo, map_bind]
    congr 1
    funext found
    cases found with
    | none => rfl
    | some a =>
      dsimp only [Option.elim]
      rw [bind_pure_comp, Functor.map_map]
      rfl

/-- What is gathered is what the rule reads one after another, added up. -/
theorem gather {item : Parser (Option α)} {rule : Nat → Rule (Option α)} (add : β → α → β) (b : β)
    (h : Follows fuel item rule) :
    Follows fuel (Parser.gather item add b) fun n => List.foldl add b <$> Rule.many (rule n) := by
  intro s within enough
  have bounded := h.gatherUpTo add s.rest b s within enough
  rw [Session.rest_length] at bounded
  exact bounded

theorem foldl_push (items more : List α) :
    more.foldl (fun items a => items ++ [a]) items = items ++ more := by
  induction more generalizing items with
  | nil => rw [List.foldl_nil, List.append_nil]
  | cons a more ih => rw [List.foldl_cons, ih, List.append_assoc, List.singleton_append]

theorem gather_list {item : Parser (Option α)} {rule : Nat → Rule (Option α)} (items : List α)
    (h : Follows fuel item rule) :
    Follows fuel (Parser.gather item (fun items a => items ++ [a]) items) fun n =>
      (items ++ ·) <$> Rule.many (rule n) := by
  apply (h.gather (fun items a => items ++ [a]) items).congr
  intro n
  exact congrArg (· <$> Rule.many (rule n)) (funext (foldl_push items))

theorem commaList (h : Follows fuel p rule) :
    Follows fuel (Parser.commaList p) fun n => Rule.commaList (rule n) := by
  apply h.bind
  intro first
  exact (gather_list [first] ((eat (isKind .comma)).after h)).congr fun n => rfl

theorem name : Follows fuel Parser.name fun _ => Rule.name := expect _ _

theorem nameList : Follows fuel Parser.nameList fun _ => Rule.nameList :=
  (require _ _).bind fun _ => name.commaList.bind fun names => (require _ _).bind fun _ => ret names

theorem columnNames : Follows fuel Parser.columnNames fun _ => Rule.columnNames :=
  (check _).choose nameList (ret [])

end Follows

/-- Closes a level where one is open. Where none is open it may do anything, as a counter may stay at
zero or fail. -/
def ClosesOpen (leave : Parser Unit) : Prop := ∀ s : Session, 0 < s.depth → leave s = Parser.leave s

/-- What has begun in an open level does what the rule does, closes the level by hand, and goes on as
`next` does on the level around it. A failure before that leaves the level open. -/
def Closes (fuel : Nat) (p : Parser α) (rule : Nat → Rule β) (next : β → Nat → Rule α) : Prop :=
  ∀ s : Session, s.Within → 0 < s.depth → s.allowance < fuel →
    ∃ (o : Outcome β) (k : Nat), rule s.allowance s.rest = o.after k s.rest ∧
      match o with
      | .error e => p s = s.reached k (.error e)
      | .ok b => ∃ q, Follows fuel q (next b) ∧ p s = q { s.skip k with depth := s.depth - 1 }

namespace Closes

variable {fuel : Nat} {p : Parser α} {next : β → Nat → Rule α}

theorem bind {q : Parser γ} {first : Nat → Rule γ} {f : γ → Parser α} {rule : γ → Nat → Rule β}
    (same : Follows fuel q first) (closes : ∀ c, Closes fuel (f c) (rule c) next) :
    Closes fuel (q >>= f) (fun n => first n >>= fun c => rule c n) next := by
  intro s within opened enough
  obtain ⟨o, k, ran, here⟩ := same s within enough
  cases o with
  | error e => exact ⟨.error e, k, bind_after_error ran, bind_error here⟩
  | ok c =>
    obtain ⟨o', k', ran', there⟩ := closes c (s.skip k) (s.skip_within k) opened enough
    rw [Session.rest_skip] at ran'
    refine ⟨o', k + k', bind_after_ok ran ran', ?_⟩
    rw [bind_ok here]
    cases o' with
    | error e => exact there.trans (s.reached_skip k k' _)
    | ok b =>
      obtain ⟨last, follows, closed⟩ := there
      rw [Session.skip_skip] at closed
      exact ⟨last, follows, closed⟩

theorem ite {c : Prop} [Decidable c] {q : Parser α} {rule other : Nat → Rule β}
    (yes : Closes fuel p rule next) (no : Closes fuel q other next) :
    Closes fuel (if c then p else q) (fun n => if c then rule n else other n) next := by
  by_cases h : c
  · simpa only [if_pos h] using yes
  · simpa only [if_neg h] using no

theorem fail (what : String) :
    Closes fuel (unexpected what : Parser α) (fun _ => (Rule.fail what : Rule β)) next := by
  intro s within _ _
  refine ⟨.error (.expected what, 0), 0, rfl, ?_⟩
  simp only [Session.reached, Session.skip_zero within]
  rfl

/-- Where the level is closed one is open, so that nothing but the closing of an open level counts. -/
theorem leave {leave : Parser Unit} (leaves : ClosesOpen leave) {b : β}
    (h : Follows fuel p (next b)) :
    Closes fuel (leave >>= fun _ => p) (fun _ => pure b) next := by
  intro s within opened enough
  refine ⟨.ok b, 0, rfl, p, h, ?_⟩
  rw [Session.skip_zero within]
  exact bind_ok (leaves s opened)

end Closes

namespace Follows

variable {fuel : Nat} {p : Parser α}

theorem enter_refused {s : Session} (none : s.allowance = 0) :
    Parser.enter s = (.error (.tooDeep s.limit s.place), { s with depth := s.depth + 1 }) := by
  have exceeded : s.limit < s.depth + 1 := Nat.lt_succ_of_le (Nat.sub_eq_zero_iff_le.1 none)
  simp only [Parser.enter, if_pos exceeded]
  rfl

theorem enter_opens {s : Session} {n : Nat} (some : s.allowance = n + 1) :
    Parser.enter s = (.ok (), { s with depth := s.depth + 1 }) := by
  have few : ¬ s.limit < s.depth + 1 := by
    simp only [Session.allowance] at some
    omega
  simp only [Parser.enter, if_neg few]

/-- A level is opened by hand. If it is one too many nothing else is done. -/
theorem enter {rule : Level → Rule β} {next : β → Nat → Rule α}
    (h : Closes fuel p (fun n => rule (Grammar.levelAt n)) next) :
    Follows fuel (Parser.enter >>= fun _ => p) fun n =>
      (Grammar.scopeAt n).enter rule >>= fun b => next b n := by
  intro s within enough
  cases left : s.allowance with
  | zero =>
    refine ⟨.error (.tooDeep, 1), 0, bind_after_error rfl, ?_⟩
    simp only [bind_error (enter_refused left), Session.reached, Session.skip_zero within]
    rfl
  | succ n =>
    let inner : Session := { s with depth := s.depth + 1 }
    have below : inner.allowance = n := s.allowance_deeper left
    obtain ⟨o, k, ran, there⟩ := h inner within (Nat.succ_pos _) (by omega)
    have inside : rule (Grammar.levelAt n) s.rest = o.after k s.rest := below ▸ ran
    rw [bind_ok (enter_opens left)]
    cases o with
    | error e =>
      refine ⟨.error (e.1, e.2 + 1), k, bind_after_error ?_, ?_⟩
      · simp only [Grammar.scopeAt, Scope.enter, inside, Outcome.after]
        rfl
      · have raised : s.depth + 1 + e.2 = s.depth + (e.2 + 1) := Nat.succ_add_eq_add_succ s.depth e.2
        rw [there]
        exact congrArg (fun depth => (_, { s.skip k with depth := depth })) raised
    | ok b =>
      obtain ⟨q, follows, closed⟩ := there
      have back : ({ inner.skip k with depth := inner.depth - 1 } : Session) = s.skip k := rfl
      obtain ⟨o', k', ran', after⟩ := follows (s.skip k) (s.skip_within k) enough
      rw [Session.rest_skip] at ran'
      refine ⟨o', k + k', bind_after_ok (a := b) ?_ (left ▸ ran'), ?_⟩
      · simp only [Grammar.scopeAt, Scope.enter, inside, Outcome.after]
        rfl
      · rw [closed, back, after, Session.reached_skip]

/-- The same where what is made is made of what the level holds. -/
theorem enter_map {rule : Level → Rule β} {g : β → α}
    (h : Closes fuel p (fun n => rule (Grammar.levelAt n)) fun b _ => pure (g b)) :
    Follows fuel (Parser.enter >>= fun _ => p) fun n => g <$> (Grammar.scopeAt n).enter rule :=
  enter h

/-- The same where the level is closed last. -/
theorem enter_last {rule : Level → Rule α}
    (h : Closes fuel p (fun n => rule (Grammar.levelAt n)) fun a _ => pure a) :
    Follows fuel (Parser.enter >>= fun _ => p) fun n => (Grammar.scopeAt n).enter rule :=
  (enter h).congr fun _ => bind_pure _

end Follows

end Parser

end SqlQuery
