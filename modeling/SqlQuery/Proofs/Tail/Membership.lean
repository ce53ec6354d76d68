import SqlQuery.Proofs.Parsed.Begin
import SqlQuery.Proofs.Reading.Expression
import SqlQuery.Proofs.RoundTrip.Expression
import SqlQuery.Proofs.Tail.Query
import SqlQuery.Proofs.Tail.Statement

/-!
A list and a query on the right of `in`: what follows groups alike, unless it binds more tightly than
`in`. Of that nothing is taken into a list, and all of it into the operand that a query begins.
-/

namespace SqlQuery

open Rule

/-- A rule that gives what is known on each side. -/
theorem Tails.SwapsAt.of_may {α : Type} {T : Tails} {D : α → α → Prop} {r : Rule α} {a a' : α}
    {rest : List Token} (lax : ¬T.strict) (left : r.MayGive T.left a rest)
    (right : r.MayGive T.right a' rest) (differ : D a a') : T.SwapsAt D r [] := by
  unfold SwapsAt
  simp only [List.nil_append]
  cases ran : r T.left with
  | error e =>
    cases r T.right with
    | error e' => exact .error
    | ok result' => exact .right lax
  | ok result =>
    obtain ⟨_, rest⟩ := result
    obtain ⟨rfl, rfl⟩ := left _ rest ran
    cases ran' : r T.right with
    | error e' => exact .left lax
    | ok result' =>
      obtain ⟨_, rest'⟩ := result'
      obtain ⟨rfl, rfl⟩ := right _ rest' ran'
      exact .ok (.past rest' differ)

/-- What is read within one limit of nesting is read within any other, unless that is met. -/
theorem Grammar.levelAt_may {α : Type} {rule : Level → Rule α} {ts rest : List Token} {a : α}
    {n : Nat} (related : ∀ n m, n ≤ m → Agrees True (rule (levelAt n)) (rule (levelAt m)))
    (ran : (rule (levelAt n)).Gives ts a rest) (m : Nat) :
    (rule (levelAt m)).MayGive ts a rest := by
  rcases Nat.le_total n m with le | le
  · exact Gives.may ((related n m le).eq_ok ran)
  · intro a' rest' ran'
    exact ran.may a' rest' ((related m n le).eq_ok ran')

/-- A list and a query in parentheses that stand in for each other on the right of `in` or `not in`.
What comes after the parentheses is no operator that binds more tightly. -/
structure RightSides where
  word : Token
  opening : Token
  closing : Token
  after : List Token
  listed : List Token
  members : List Expr
  queried : List Token
  query : Query
  levels : Nat
  word_eq : word = ⟨.command, "in"⟩ ∨ word = ⟨.command, "not in"⟩
  opens : opening.kind = .openParen
  closes : closing.kind = .closeParen
  members_read : Grammar.values (Grammar.levelAt levels) (listed ++ closing :: after) =
    .ok (members, closing :: after)
  query_read : Grammar.queryAt levels (queried ++ closing :: after) = .ok (query, closing :: after)
  loose : ∀ t ∈ after.head?, ∀ power ∈ Power.binary? t, power < Power.right 7

namespace RightSides

variable (m : RightSides)

/-- The tokens from the operator on, with a list or a query as its right operand. -/
def side (inner : List Token) : List Token := m.word :: m.opening :: (inner ++ m.closing :: m.after)

/-- The operator with the list on its right, and with the query. -/
def Sides (j j' : Json) : Prop :=
  ∃ operand, j = (Expr.binary operand m.word.text (.tuple m.members)).toJson ∧
    j' = (Expr.binary operand m.word.text (.inlineQuery m.query)).toJson

theorem word_mem : m.word ∈ tailHeads := by
  rcases m.word_eq with same | same <;> rw [same] <;> decide

def tails : Tails where
  left := m.side m.listed
  right := m.side m.queried
  left_head := by
    intro t head
    exact Option.some.inj head ▸ m.word_mem
  right_head := by
    intro t head
    exact Option.some.inj head ▸ m.word_mem
  look := by
    intro n near p _
    match n, near with
    | 0, _ => rfl
    | 1, _ => rfl
  strict := False
  site := m.Sides

open Grammar

theorem operatorFrom_word (floor : Nat) : operatorFrom floor m.word =
    if 7 < floor then none else some (m.word.text, Power.right 7) := by
  rcases m.word_eq with same | same <;> rw [same] <;> rfl

theorem operatorSuffix_word (scope : Scope) (power : Nat) : operatorSuffix scope m.word.text power =
    .binary m.word.text <$> membership scope power := by
  rcases m.word_eq with same | same <;> rw [same] <;> rfl

/-- The list begins a value, neither a query nor the end of the list. -/
theorem listed_opens : ∃ t ∈ (m.listed ++ m.closing :: m.after).head?, t.opensValue = true := by
  obtain ⟨e, mid, ran, _⟩ := bind_eq_ok.1 m.members_read
  have ran : exprAt m.levels 0 (m.listed ++ m.closing :: m.after) = .ok (e, mid) := ran
  cases levels : m.levels with
  | zero =>
    rw [levels] at ran
    simp [exprAt] at ran
  | succ n =>
    rw [levels, exprAt_succ] at ran
    obtain ⟨first, mid, ran, _⟩ := bind_eq_ok.1 ran
    exact operand_opens ran

theorem queried_opens : ∃ t ∈ (m.queried ++ m.closing :: m.after).head?, t.opensQuery = true := by
  have ran := m.query_read
  cases levels : m.levels with
  | zero =>
    rw [levels] at ran
    simp [queryAt] at ran
  | succ n =>
    rw [levels, queryAt_succ] at ran
    exact query_opens ran

theorem inside_eq {n : Nat} {level : Level} (inside : (scopeAt n).inside = some level) :
    ∃ k, level = levelAt k := by
  cases n with
  | zero => cases inside
  | succ n => exact ⟨n, (Option.some.inj inside).symm⟩

theorem closes_gives : closeParen.Gives (m.closing :: m.after) () m.after :=
  Gives.require (Token.isKind_iff.2 m.closes)

theorem membership_list (n power : Nat) : (membership (scopeAt n) power).MayGive
    (m.opening :: (m.listed ++ m.closing :: m.after)) (.tuple m.members) m.after := by
  obtain ⟨t, head, opens⟩ := m.listed_opens
  have second : (m.opening :: (m.listed ++ m.closing :: m.after))[1]?.any Token.opensQuery =
      false := by
    rw [List.getElem?_cons_succ, ← List.head?_eq_getElem?, Option.mem_def.1 head]
    exact Token.not_query_of_opensValue opens
  have filled : Lacks (isKind .closeParen) (m.listed ++ m.closing :: m.after) := by
    intro u mem
    cases Option.some.inj (head.symm.trans mem)
    exact Token.not_kind_of_opensValue opens (.inl rfl)
  refine (Gives.look_true (Token.isKind_iff.2 m.opens)).may.bind ?_
  refine (startsQuery_gives 1 _).may.bind ?_
  rw [second]
  refine .iteFalse (by decide) ((Gives.skip _ _).may.bind (.map _ (.enter fun level inside => ?_)))
  obtain ⟨k, rfl⟩ := inside_eq inside
  have list : (values (levelAt k)).MayGive (m.listed ++ m.closing :: m.after) m.members
      (m.closing :: m.after) :=
    levelAt_may (fun _ _ le => values_related (levelAt_deeper le).1) m.members_read k
  refine MayGive.bind ?_ (m.closes_gives.may.bind (Gives.ret _ _).may)
  exact (Gives.look_false filled).may.bind (.iteFalse (by decide) list)

/-- The query is read as an operand, after which no operator binds tightly enough. -/
theorem membership_query (n : Nat) : (membership (scopeAt n) (Power.right 7)).MayGive
    (m.opening :: (m.queried ++ m.closing :: m.after)) (.inlineQuery m.query) m.after := by
  obtain ⟨t, head, opens⟩ := m.queried_opens
  have second : (m.opening :: (m.queried ++ m.closing :: m.after))[1]?.any Token.opensQuery =
      true := by
    rw [List.getElem?_cons_succ, ← List.head?_eq_getElem?, Option.mem_def.1 head]
    exact opens
  refine (Gives.look_true (Token.isKind_iff.2 m.opens)).may.bind ?_
  refine (startsQuery_gives 1 _).may.bind ?_
  rw [second]
  refine .iteTrue (by decide) ?_
  cases n with
  | zero =>
    intro e rest ran
    simp [scopeAt, levelAt, exprAt] at ran
  | succ n =>
    simp only [scopeAt, levelAt, exprAt_succ]
    have parens : (parenthesizedQuery (scopeAt n)).MayGive
        (m.opening :: (m.queried ++ m.closing :: m.after)) (.inlineQuery m.query) m.after := by
      refine (Gives.require (Token.isKind_iff.2 m.opens)).may.bind ?_
      refine .map _ (.enter fun level inside => ?_)
      obtain ⟨k, rfl⟩ := inside_eq inside
      have query : (levelAt k).query.MayGive (m.queried ++ m.closing :: m.after) m.query
          (m.closing :: m.after) :=
        levelAt_may (fun _ _ le => (levelAt_deeper le).1.query) m.query_read k
      exact query.bind (m.closes_gives.may.bind (Gives.ret _ _).may)
    have first : (operand (scopeAt n)).MayGive (m.opening :: (m.queried ++ m.closing :: m.after))
        (.inlineQuery m.query) m.after := by
      have plain : Power.unary? m.opening = none := by simp [Power.unary?, Token.isCommand, m.opens]
      unfold MayGive
      rw [operand_primary plain, primary, m.opens]
      exact (startsQuery_gives 1 _).may.bind (.iteTrue second parens)
    have none : Yielding (suffix (scopeAt n) (Power.right 7)) m.after [] m.after :=
      .done (suffix_stops m.loose)
    exact first.bind (none.many.may.bind (Gives.ret _ _).may)

theorem suffix_tails (n floor : Nat) :
    m.tails.SwapsAt (Found m.tails.Suffixes) (suffix (scopeAt n) floor) [] := by
  have word := m.operatorFrom_word floor
  by_cases tight : 7 < floor
  · rw [if_pos tight] at word
    have none (inner : List Token) :
        (suffix (scopeAt n) floor).Gives (m.side inner) none (m.side inner) :=
      (Gives.accept_none fun t head => Option.some.inj head ▸ word).bind (Gives.ret _ _)
    have left : suffix (scopeAt n) floor m.tails.left = _ := none m.listed
    have right : suffix (scopeAt n) floor m.tails.right = _ := none m.queried
    unfold Tails.SwapsAt
    rw [List.nil_append, List.nil_append, left, right]
    exact .ok (.before _ [])
  · rw [if_neg tight] at word
    have some {inner : List Token} {e : Expr}
        (read : (membership (scopeAt n) (Power.right 7)).MayGive
          (m.opening :: (inner ++ m.closing :: m.after)) e m.after) :
        (suffix (scopeAt n) floor).MayGive (m.side inner) (some (.binary m.word.text e)) m.after := by
      refine (Gives.accept_some word).may.bind (.map some ?_)
      rw [operatorSuffix_word]
      exact read.map _
    exact .of_may id (some (m.membership_list n _)) (some (m.membership_query n))
      (.mk fun operand => .here ⟨operand, rfl, rfl⟩)

end RightSides

namespace Session

/-- A list and a query in its place on the right of `in` make trees that are the same but for this
operand, where no tighter operator follows. -/
theorem statement_membership (m : RightSides) (before : List Token) (ls ls' : List Lexeme)
    (limit limit' : Nat) {q q' : Query} (listed : Lexeme.tokens ls = before ++ m.side m.listed)
    (queried : Lexeme.tokens ls' = before ++ m.side m.queried)
    (read : (start ls limit).statement.1 = .ok q)
    (read' : (start ls' limit').statement.1 = .ok q') :
    Json.DiffersAt m.Sides q.toJson q'.toJson := by
  obtain ⟨rest, few, ran⟩ := statement_query read (Nat.le_max_left limit limit')
  obtain ⟨rest', _, ran'⟩ := statement_query read' (Nat.le_max_right limit limit')
  rw [listed] at ran
  rw [queried] at ran'
  have swaps : Compares False (m.tails.Alike (m.tails.At Query.toJson))
      (Grammar.queryAt (max limit limit') (before ++ m.side m.listed))
      (Grammar.queryAt (max limit limit') (before ++ m.side m.queried)) :=
    (Grammar.levelAt_swaps m.suffix_tails (max limit limit')).1.query before
  rw [ran, ran'] at swaps
  cases swaps with
  | ok alike =>
    cases alike with
    | past _ differ => exact differ
    | before _ b =>
      -- At least the operator and the parenthesis are left.
      have long : 2 ≤ (b ++ m.tails.left).length := by
        simp only [RightSides.tails, RightSides.side, List.length_append, List.length_cons]
        omega
      exact absurd few (by omega)

/-- `select a in (1) and b` and `select a in (select 1) and b`. -/
theorem statement_membership_and :
    let one : Expr := .literal (.number "1")
    let before : List Lexeme := [.ofText .command "select" 0, .ofText .identifier "a" 7,
      .ofText .command "in" 9, .ofText .openParen "(" 12]
    let listed : List Lexeme := before ++ [Lexeme.ofText .literal "1" 13, .ofText .closeParen ")" 14,
      .ofText .command "and" 16, .ofText .identifier "b" 20]
    let queried : List Lexeme := before ++ [Lexeme.ofText .command "select" 13, .ofText .literal "1" 20,
      .ofText .closeParen ")" 21, .ofText .command "and" 23, .ofText .identifier "b" 27]
    ∃ q q', (start listed 9).statement.1 = .ok q ∧ (start queried 9).statement.1 = .ok q' ∧
      Json.DiffersAt (fun j j' => ∃ operand, j = (Expr.binary operand "in" (.tuple [one])).toJson ∧
          j' = (Expr.binary operand "in" (.inlineQuery (.selecting one))).toJson)
        q.toJson q'.toJson := by
  intro one before listed queried
  let m : RightSides :=
    { word := ⟨.command, "in"⟩, opening := ⟨.openParen, "("⟩, closing := ⟨.closeParen, ")"⟩,
      after := [⟨.command, "and"⟩, ⟨.identifier, "b"⟩], listed := [⟨.literal, "1"⟩],
      members := [one], queried := [⟨.command, "select"⟩, ⟨.literal, "1"⟩],
      query := Query.selecting one, levels := 2, word_eq := .inl rfl, opens := rfl, closes := rfl,
      members_read := rfl, query_read := rfl, loose := by decide }
  have read : (start listed 9).statement.1 =
      .ok (.selecting (.binary (.binary (.columnNamed "a") "in" (.tuple [one])) "and"
        (.columnNamed "b"))) := statement_eq_ok.2 ⟨_, rfl⟩
  have read' : (start queried 9).statement.1 =
      .ok (.selecting (.binary (.binary (.columnNamed "a") "in" (.inlineQuery (.selecting one))) "and"
        (.columnNamed "b"))) := statement_eq_ok.2 ⟨_, rfl⟩
  refine ⟨_, _, read, read', ?_⟩
  exact statement_membership m [⟨.command, "select"⟩, ⟨.identifier, "a"⟩] listed queried 9 9
    rfl rfl read read'

/-- In `select a in (1) + 1` the `in` stands on the left of the sum, and in `select a in (select 1) + 1`
the sum on the right of the `in`. -/
theorem statement_membership_plus :
    let one : Expr := .literal (.number "1")
    let a : Expr := .column ⟨[], "a"⟩
    let before : List Lexeme := [.ofText .command "select" 0, .ofText .identifier "a" 7,
      .ofText .command "in" 9, .ofText .openParen "(" 12]
    let listed : List Lexeme := before ++ [Lexeme.ofText .literal "1" 13, .ofText .closeParen ")" 14,
      .ofText .operator "+" 16, .ofText .literal "1" 18]
    let queried : List Lexeme := before ++ [Lexeme.ofText .command "select" 13, .ofText .literal "1" 20,
      .ofText .closeParen ")" 21, .ofText .operator "+" 23, .ofText .literal "1" 25]
    (start listed 9).statement.1 =
        .ok (.selecting (.binary (.binary a "in" (.tuple [one])) "+" one)) ∧
      (start queried 9).statement.1 =
        .ok (.selecting (.binary a "in" (.binary (.inlineQuery (.selecting one)) "+" one))) :=
  ⟨statement_eq_ok.2 ⟨_, rfl⟩, statement_eq_ok.2 ⟨_, rfl⟩⟩

end Session

end SqlQuery
