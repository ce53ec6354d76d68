import SqlQuery.Grammar.Rule
import SqlQuery.Proofs.Casing.Token
import SqlQuery.Proofs.Casing.Tree

/-!
Rules on tokens in lowercase. What a rule gives there is what it gives on the tokens themselves, in
lowercase, and it gives up in the same place for the same reason. There is one law for each way in
which rules are put together.
-/

namespace SqlQuery

variable {α β γ : Type}

def Stop.lower (stop : Stop) : Stop := { stop with rest := stop.rest.map Token.lower }

/-- What a rule came to, in lowercase. -/
def lowerResult (g : α → α) : Except Stop (α × List Token) → Except Stop (α × List Token)
  | .ok (a, rest) => .ok (g a, rest.map Token.lower)
  | .error stop => .error stop.lower

namespace Rule

theorem accept_map (f : Token → Option α) (g : α → β) :
    accept (fun t => (f t).map g) = Option.map g <$> accept f := by
  funext ts
  cases ts with
  | nil => rfl
  | cons t ts =>
    simp only [accept, List.head?_cons, Option.bind_some, Functor.map, StateT.map]
    cases f t <;> rfl

theorem expect_map (f : Token → Option α) (g : α → β) (what : String) :
    expect (fun t => (f t).map g) what = g <$> expect f what := by
  rw [expect, accept_map, bind_map_left, expect, map_bind]
  congr 1
  funext o
  cases o <;> rfl

/-- On tokens in lowercase the second rule does what the first one does. -/
def Lowers (g : α → α) (r r' : Rule α) : Prop :=
  ∀ ts, r' (ts.map Token.lower) = lowerResult g (r ts)

namespace Lowers

variable {g : α → α} {h : β → β} {r r' s s' : Rule α} {n : Nat} {p : Token → Bool}
  {f f' : Token → Option α} {what : String}

theorem ret {a b : α} (same : b = g a) : Lowers g (pure a) (pure b) := fun _ => same ▸ rfl

theorem stop (cause : Cause) : Lowers g (Rule.stop cause) (Rule.stop cause) := fun _ => rfl

theorem fail (what : String) : Lowers g (Rule.fail what) (Rule.fail what) := stop (.expected what)

theorem bind {k k' : α → Rule β} (first : Lowers g r r') (next : ∀ a, Lowers h (k a) (k' (g a))) :
    Lowers h (r >>= k) (r' >>= k') := by
  intro ts
  have ran := first ts
  simp only [Bind.bind, StateT.bind, Except.bind, ran]
  cases r ts with
  | error stop => rfl
  | ok result => exact next result.1 result.2

/-- What holds no text is the same in lowercase. -/
theorem pass {k k' : α → Rule β} (first : Lowers id r r') (next : ∀ a, Lowers h (k a) (k' a)) :
    Lowers h (r >>= k) (r' >>= k') :=
  first.bind next

theorem map {k k' : α → β} (first : Lowers g r r') (same : ∀ a, k' (g a) = h (k a)) :
    Lowers h (k <$> r) (k' <$> r') := by
  have mapped : Lowers h (r >>= fun a => pure (k a)) (r' >>= fun a => pure (k' a)) :=
    first.bind fun a => ret (same a)
  exact mapped

theorem ite {c : Prop} [Decidable c] (yes : Lowers g r r') (no : Lowers g s s') :
    Lowers g (if c then r else s) (if c then r' else s') := by
  by_cases holds : c
  · rwa [if_pos holds, if_pos holds]
  · rwa [if_neg holds, if_neg holds]

/-- What a test chooses between. -/
theorem choose {test test' : Rule Bool} (tested : Lowers id test test') (yes : Lowers g r r')
    (no : Lowers g s s') : Lowers g (test >>= fun b => if b then r else s)
      (test' >>= fun b => if b then r' else s') :=
  tested.pass fun _ => ite yes no

theorem look (n : Nat) (same : ∀ t, p t.lower = p t) :
    Lowers id (Rule.look n p) (Rule.look n p) := by
  intro ts
  have found : (ts.map Token.lower)[n]?.any p = ts[n]?.any p := by
    rw [List.getElem?_map]
    cases ts[n]? with
    | none => rfl
    | some t => exact same t
  simp only [Rule.look, found]
  rfl

theorem peek : Lowers (Option.map Token.lower) Rule.peek Rule.peek := by
  intro ts
  cases ts <;> rfl

theorem skip : Lowers id Rule.skip Rule.skip := by
  intro ts
  cases ts <;> rfl

theorem accept (same : ∀ t, f' t.lower = (f t).map g) :
    Lowers (Option.map g) (Rule.accept f) (Rule.accept f') := by
  intro ts
  cases ts with
  | nil => rfl
  | cons t ts =>
    simp only [Rule.accept, List.map_cons, List.head?_cons, Option.bind_some, List.tail_cons, same]
    cases f t <;> rfl

/-- A token that is read for what it is and not for its text. -/
theorem acceptPlain (same : ∀ t, f t.lower = f t) : Lowers id (Rule.accept f) (Rule.accept f) := by
  have plain : Lowers (Option.map id) (Rule.accept f) (Rule.accept f) :=
    accept fun t => by rw [same, Option.map_id_fun, id]
  rwa [Option.map_id_fun] at plain

theorem eat (same : ∀ t, p t.lower = p t) : Lowers id (Rule.eat p) (Rule.eat p) :=
  map (acceptPlain fun t => by rw [same]) fun _ => rfl

theorem expect (same : ∀ t, f' t.lower = (f t).map g) :
    Lowers g (Rule.expect f what) (Rule.expect f' what) := by
  refine (accept same).bind fun o => ?_
  cases o with
  | none => exact fail what
  | some a => exact ret rfl

theorem require (same : ∀ t, p t.lower = p t) :
    Lowers id (Rule.require p what) (Rule.require p what) :=
  expect fun t => by rw [same, Option.map_id_fun, id]

theorem after {mark mark' : Rule Bool} (marked : Lowers id mark mark') (item : Lowers g r r') :
    Lowers (Option.map g) (Rule.after mark r) (Rule.after mark' r') :=
  marked.choose (item.map fun _ => rfl) (ret rfl)

theorem upTo {item item' : Rule (Option α)} (each : Lowers (Option.map g) item item')
    (bound : List Token) :
    Lowers (List.map g) (Rule.upTo item bound) (Rule.upTo item' (bound.map Token.lower)) := by
  induction bound with
  | nil => exact ret rfl
  | cons t bound ih =>
    refine each.bind fun o => ?_
    cases o with
    | none => exact ret rfl
    | some a => exact ih.map fun _ => rfl

theorem many {item item' : Rule (Option α)} (each : Lowers (Option.map g) item item') :
    Lowers (List.map g) (Rule.many item) (Rule.many item') :=
  fun ts => upTo each ts ts

end Lowers

end Rule

namespace Token

@[simp] theorem isKind_lower (kind : Kind) (t : Token) : isKind kind t.lower = isKind kind t := by
  rw [isKind, lower_kind, isKind]

theorem free_of_isName (t : Token) (named : isName t = true) : t.kind.isFixed = false := by
  simp only [isName, Bool.and_eq_true, beq_iff_eq] at named
  rw [named.1]
  rfl

/-- The text of a token that is neither a keyword nor an operator, if the token is asked for. -/
theorem text_lower {p : Token → Bool} (same : ∀ t, p t.lower = p t)
    (free : ∀ t, p t = true → t.kind.isFixed = false) (t : Token) :
    (if p t.lower then some t.lower.text else none) =
      (if p t then some t.text else none).map Text.lower := by
  rw [same]
  split
  case isTrue asked => rw [lower_text (free t asked), Option.map_some]
  case isFalse => rfl

/-- What asks for keywords and operators alone does so whatever the case. -/
theorem eq_of_fixed {f : Token → β} (free : ∀ t : Token, t.kind.isFixed = false → f t.lower = f t)
    (t : Token) : f t.lower = f t := by
  cases fixed : t.kind.isFixed with
  | true => rw [lower_fixed fixed]
  | false => exact free t fixed

theorem free_of_isKind {kind : Kind} (free : kind.isFixed = false) (t : Token)
    (h : isKind kind t = true) : t.kind.isFixed = false := by
  rw [beq_iff_eq.1 h, free]

theorem not_isKind_of_free {kind : Kind} (fixed : kind.isFixed = true) {t : Token}
    (free : t.kind.isFixed = false) : isKind kind t = false := by
  rw [isKind, beq_eq_false_iff_ne]
  rintro rfl
  rw [fixed] at free
  cases free

/-- Only a text without letters is compared with the wildcard. -/
theorem lower_beq_wildcard (name : String) : (Text.lower name == "*") = (name == "*") := by
  rw [Bool.eq_iff_iff, beq_iff_eq, beq_iff_eq]
  exact Text.lower_eq_iff (by decide)

@[simp] theorem isName_lower (t : Token) : isName t.lower = isName t := by
  unfold isName
  rw [lower_kind]
  by_cases named : t.kind = .identifier
  · rw [lower_text (named ▸ rfl), bne, lower_beq_wildcard, bne]
  · rw [beq_eq_false_iff_ne.2 named]
    rfl

end Token

namespace Rule.Lowers

variable {g : α → α} {r r' : Rule α}

theorem eatKeyword (keyword : String) :
    Lowers id (Rule.eatKeyword keyword) (Rule.eatKeyword keyword) :=
  eat fun t => t.isCommand_lower keyword

theorem eatWord (word : String) : Lowers id (Rule.eatWord word) (Rule.eatWord word) :=
  eat fun t => t.isWord_lower word

theorem eatKind (kind : Kind) : Lowers id (Rule.eatKind kind) (Rule.eatKind kind) :=
  eat (Token.isKind_lower kind)

theorem keyword (keyword : String) : Lowers id (Rule.keyword keyword) (Rule.keyword keyword) :=
  require fun t => t.isCommand_lower keyword

theorem word (word : String) : Lowers id (Rule.word word) (Rule.word word) :=
  require fun t => t.isWord_lower word

theorem openParen : Lowers id Rule.openParen Rule.openParen := require (Token.isKind_lower _)

theorem closeParen : Lowers id Rule.closeParen Rule.closeParen := require (Token.isKind_lower _)

theorem closeBracket : Lowers id Rule.closeBracket Rule.closeBracket :=
  require (Token.isKind_lower _)

theorem expectName (what : String) :
    Lowers Text.lower (Rule.expect (fun t => if isName t then some t.text else none) what)
      (Rule.expect (fun t => if isName t then some t.text else none) what) :=
  expect (Token.text_lower Token.isName_lower Token.free_of_isName)

theorem name : Lowers Text.lower Rule.name Rule.name := expectName _

theorem commaList (item : Lowers g r r') :
    Lowers (List.map g) (Rule.commaList r) (Rule.commaList r') :=
  item.bind fun _ => ((eatKind .comma).after item).many.bind fun _ => ret rfl

theorem nameList : Lowers (List.map Text.lower) Rule.nameList Rule.nameList :=
  openParen.pass fun _ => name.commaList.bind fun _ => closeParen.pass fun _ => ret rfl

theorem columnNames : Lowers (List.map Text.lower) Rule.columnNames Rule.columnNames :=
  (look 0 (Token.isKind_lower _)).choose nameList (ret rfl)

end Rule.Lowers

/-- The rules of the level do the same in lowercase. -/
structure Level.Lowers (level : Level) : Prop where
  expr : ∀ floor, Rule.Lowers Expr.lower (level.expr floor) (level.expr floor)
  query : Rule.Lowers Query.lower level.query level.query

structure Scope.Lowers (scope : Scope) : Prop where
  here : scope.here.Lowers
  inside : ∀ level, scope.inside = some level → level.Lowers

theorem Scope.Lowers.enter {scope : Scope} {g : α → α} {rule rule' : Level → Rule α}
    (h : scope.Lowers) (same : ∀ level, level.Lowers → Rule.Lowers g (rule level) (rule' level)) :
    Rule.Lowers g (scope.enter rule) (scope.enter rule') := by
  intro ts
  unfold Scope.enter
  cases inside : scope.inside with
  | none => rfl
  | some level =>
    have ran := same level (h.inside level inside) ts
    simp only [ran]
    cases rule level ts <;> rfl

end SqlQuery
