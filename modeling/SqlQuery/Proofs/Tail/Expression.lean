import SqlQuery.Proofs.Parsed.Begin
import SqlQuery.Proofs.Relation.Expression
import SqlQuery.Proofs.Tail.Rule

/-!
The rules for expressions on two lists of tokens that differ in their tails.
-/

namespace SqlQuery

open Rule Tails

/-- What two suffixes make of an operand differs. -/
def Tails.Suffixes (T : Tails) (s s' : Grammar.Suffix) : Prop :=
  ∀ operand, T.At Expr.toJson (s.apply operand) (s'.apply operand)

structure Level.Swaps (T : Tails) (level : Level) : Prop where
  agrees : level.Related (agreement False) level
  expr : ∀ floor, T.Swaps (T.At Expr.toJson) (level.expr floor)
  query : T.Swaps (T.At Query.toJson) level.query

/-- The tails themselves are read, if at all, as an operator after an operand. -/
structure Scope.Swaps (T : Tails) (scope : Scope) : Prop where
  here : scope.here.Swaps T
  inside : ∀ level, scope.inside = some level → level.Swaps T
  agrees : scope.Related (agreement False) (agreement False) scope
  tail : ∀ floor, T.SwapsAt (Found T.Suffixes) (Grammar.suffix scope floor) []

namespace Grammar

variable {T : Tails} {level : Level} {scope : Scope} {b : List Token} {t : Token}

theorem values_swaps (h : level.Swaps T) :
    T.Swaps (OneOf (T.At Expr.toJson)) (values level) :=
  (h.expr 0).commaList (shortens_of_agreement (h.agrees.expr 0))

theorem valuesBefore_swaps (h : level.Swaps T) {close : Kind} (other : close ≠ .operator) :
    T.Swaps (OneOf (T.At Expr.toJson)) (valuesBefore close level) :=
  .choose (.look (Nat.zero_le 1) (by simpa [isKind, semicolon] using other.symm)) (.ret [])
    (values_swaps h)

/-- What is made of one value alone, and of any other number of them. -/
theorem oneOrMore_carries {f : Expr → Expr} {g : List Expr → Expr} {es es' : List Expr}
    (one : ∀ e e', T.At Expr.toJson e e' → T.At Expr.toJson (f e) (f e'))
    (more : ∀ es es', OneOf (T.At Expr.toJson) es es' → T.At Expr.toJson (g es) (g es')) :
    OneOf (T.At Expr.toJson) es es' → T.Carries (T.At Expr.toJson)
      (match es with | [e] => pure (f e) | es => pure (g es))
      (match es' with | [e] => pure (f e) | es => pure (g es)) := by
  intro differ
  cases differ with
  | head as differ =>
    cases as with
    | nil => exact .ret (one _ _ differ)
    | cons a as => exact .ret (more _ _ (.head _ differ))
  | tail a differ =>
    cases differ with
    | head as differ => exact .ret (more _ _ (.tail a (.head as differ)))
    | tail a' differ => exact .ret (more _ _ (.tail a (.tail a' differ)))

theorem argumentValues_swaps (h : level.Swaps T) :
    T.Swaps (T.At Expr.toJson) (argumentValues level) := by
  refine (values_swaps h).bind (fun values => ?_) fun _ _ => oneOrMore_carries (f := fun e => e)
    (g := .list) (fun _ _ differ => differ)
    (fun _ _ differ => .field [] _ [] (.field [] _ [] (.exprs differ)))
  split
  · exact .ret _
  · exact .ret _

theorem nestedQuery_swaps (h : level.Swaps T) : T.Swaps (T.At Query.toJson) (nestedQuery level) :=
  h.query.bind (fun query => (Swaps.require (by decide)).andThen fun _ => .ret query)
    fun _ _ differ => .bind fun _ => .ret differ

theorem parenthesizedQuery_swaps (h : scope.Swaps T) :
    T.Swaps (T.At Expr.toJson) (parenthesizedQuery scope) :=
  (Swaps.require (by decide)).andThen fun _ =>
    (Swaps.enter fun level inside => nestedQuery_swaps (h.inside level inside)).map
      fun _ _ differ => .field [] _ [] (.field [] _ [] differ)

/-- Up to a closing parenthesis. -/
theorem closed_swaps {α : Type} {D : α → α → Prop} {r : Rule α} (h : T.Swaps D r) :
    T.Swaps D (do let a ← r; closeParen; return a) :=
  h.bind (fun a => (Swaps.require (by decide)).andThen fun _ => .ret a)
    fun _ _ differ => .bind fun _ => .ret differ

theorem parenthesized_swaps (h : scope.Swaps T) :
    T.SwapsAt (T.At Expr.toJson) (parenthesized scope) (t :: b) := by
  refine .look (Nat.le_refl 1) (by decide) fun starts => ?_
  refine .ite (parenthesizedQuery_swaps h _) (.skip ?_)
  have listed : T.Swaps (OneOf (T.At Expr.toJson)) (scope.enter fun level => do
      let values ← values level
      closeParen
      return values) :=
    .enter fun level inside => closed_swaps (values_swaps (h.inside level inside))
  refine listed.bind (fun values => ?_) (fun _ _ => oneOrMore_carries (f := .paren) (g := .tuple)
    (fun _ _ differ => .field [] _ [] (.field [] _ [] differ))
    (fun _ _ differ => .field [] _ [] (.field [] _ [] (.exprs differ)))) b
  split
  · exact .ret _
  · exact .ret _

theorem membership_swaps (h : scope.Swaps T) (power : Nat) :
    T.Swaps (T.At Expr.toJson) (membership scope power) := by
  intro b
  cases b with
  | nil =>
    refine .look_tail (b := []) (p := isKind .openParen) (by decide) ?_
    exact .look (Nat.le_refl 1) (by decide) fun starts => h.here.expr power []
  | cons t b =>
    refine .look (Nat.zero_le 1) (by decide) fun opened => ?_
    refine .look (Nat.le_refl 1) (by decide) fun starts => ?_
    refine .ite (h.here.expr power _) (.skip ?_)
    have listed : T.Swaps (OneOf (T.At Expr.toJson)) (scope.enter fun level => do
        let values ← valuesBefore .closeParen level
        closeParen
        return values) :=
      .enter fun level inside =>
        closed_swaps (valuesBefore_swaps (h.inside level inside) (by decide))
    exact listed.map (fun _ _ differ => .field [] _ [] (.field [] _ [] (.exprs differ))) b

/-- The words of a time zone, once they are known to be there. -/
def zones : Rule String := do
  if ← eatKeyword "with" then
    skip
    skip
    return " with time zone"
  else if ← eatWord "without" then
    skip
    skip
    return " without time zone"
  else return ""

theorem timeZone_run (ts : List Token) : timeZone ts =
    if (ts[1]?.any fun t => t.isWord "time") && (ts[2]?.any fun t => t.isWord "zone") then zones ts
    else .ok ("", ts) := by
  change (if _ then zones else pure "" : Rule String) ts = _
  split <;> rfl

/-- The words of a time zone do not go over into a tail. -/
theorem timeZone_short {tail : List Token} (head : ∀ t ∈ tail.head?, t ∈ tailHeads)
    (short : b.length ≤ 2) : timeZone (b ++ tail) = .ok ("", b ++ tail) := by
  have words : ∀ t ∈ tailHeads, t.isWord "time" = false ∧ t.isWord "zone" = false := by decide
  rw [timeZone_run]
  split
  case isFalse => rfl
  case isTrue ahead =>
    rw [Bool.and_eq_true] at ahead
    cases tail with
    | nil =>
      rw [List.append_nil] at ahead
      match b, short, ahead with
      | [_, _], _, ⟨_, zone⟩ => cases zone
    | cons t tail =>
      have mem : t ∈ tailHeads := head t rfl
      match b, short, ahead with
      | [], _, _ =>
        simp only [tailHeads, List.mem_cons, List.not_mem_nil, or_false] at mem
        rcases mem with rfl | rfl | rfl <;> rfl
      | [_], _, ⟨time, _⟩ => cases ((words t mem).1.symm.trans time)
      | [_, _], _, ⟨_, zone⟩ => cases ((words t mem).2.symm.trans zone)

theorem zones_swaps {D : String → String → Prop} {t₁ t₂ : Token} :
    T.SwapsAt D zones (t :: t₁ :: t₂ :: b) := by
  refine .eat_cons ?_ (.eat_cons ?_ (Swaps.ret "" _))
  · exact .skip (.skip (Swaps.ret " with time zone" b))
  · exact .skip (.skip (Swaps.ret " without time zone" b))

theorem timeZone_swaps {D : String → String → Prop} : T.Swaps D timeZone := by
  intro b
  match b with
  | t :: t₁ :: t₂ :: b =>
    have known : T.SwapsAt D (if t₁.isWord "time" && t₂.isWord "zone" then zones else pure "")
        (t :: t₁ :: t₂ :: b) := .ite zones_swaps (Swaps.ret "" _)
    exact known
  | [] | [_] | [_, _] =>
    unfold SwapsAt
    rw [timeZone_short T.left_head (by simp), timeZone_short T.right_head (by simp)]
    exact .ok (.before "" _)

theorem typeSuffix_swaps {D : String → String → Prop} (name : String) :
    T.Swaps D (typeSuffix name) := by
  refine .ite (.choose (.eat (by decide)) (.ret _) (.ret _)) ?_
  exact .ite (.choose (.eat (by decide)) (.ret _) (.ret _)) (.ite timeZone_swaps (.ret _))

theorem typeRef_swaps (h : level.Swaps T) : T.Swaps (T.At TypeRef.toJson) (typeRef level) := by
  refine (Swaps.expect (by decide)).andThen fun name => ?_
  refine (typeSuffix_swaps name).andThen fun suffix => ?_
  refine Swaps.map (E := T.At TypeRef.toJson) (g := fun argument => ⟨name ++ suffix, argument⟩)
    (Swaps.after (.eat (by decide)) (D := T.At Expr.toJson) ?_) fun _ _ differ => ?_
  · refine (values_swaps h).bind (fun values => ?_) fun _ _ differ => .bind fun _ => ?_
    · exact (Swaps.require (by decide)).andThen fun _ => .ret _
    · exact .ret (.field [] _ [] (.field [] _ [] (.exprs differ)))
  · cases differ with
    | mk differ => exact .field [_] _ [] differ

theorem operatorSuffix_swaps (h : scope.Swaps T) (operator : String) (power : Nat) :
    T.Swaps T.Suffixes (operatorSuffix scope operator power) := by
  refine .ite ((typeRef_swaps h.here).map fun _ _ differ operand => ?_) (.ite ?_ (.ite ?_ ?_))
  · exact .field [] _ [] (.field [_] _ [] differ)
  · refine (h.here.expr power).bind (fun lower => (Swaps.require (by decide)).andThen fun _ => ?_)
      fun _ _ differ => ?_
    · exact (h.here.expr power).bind (fun upper => .ret _) fun _ _ differ => .ret fun operand =>
        .field [] _ [] (.field [_, _] _ [_] differ)
    · exact .bind fun _ => .bind fun upper => .ret fun operand =>
        .field [] _ [] (.field [_] _ [_, _] differ)
  · exact (membership_swaps h power).map fun _ _ differ operand =>
      .field [] _ [] (.field [_, _] _ [] differ)
  · exact (h.here.expr power).map fun _ _ differ operand =>
      .field [] _ [] (.field [_, _] _ [] differ)

theorem suffix_swaps (h : scope.Swaps T) (floor : Nat) :
    T.Swaps (Found T.Suffixes) (suffix scope floor) := by
  intro b
  cases b with
  | nil => exact h.tail floor
  | cons t b =>
    refine .accept_cons (fun found _ => ?_) fun _ => Swaps.ret none _
    exact (operatorSuffix_swaps h found.1 found.2).map (fun _ _ => .mk) b

theorem direction_swaps {D : SortDirection → SortDirection → Prop} : T.Swaps D direction :=
  .choose (.eat (by decide)) (.ret _) ((Swaps.eat (by decide)).andThen fun _ => .ret _)

theorem nullsPosition_swaps {D : Option NullsPosition → Option NullsPosition → Prop} :
    T.Swaps D nullsPosition :=
  .choose (.eat (by decide)) (.ret _) (.choose (.eat (by decide)) (.ret _) (.ret _))

theorem orderItem_swaps (h : level.Swaps T) : T.Swaps (T.At OrderItem.toJson) (orderItem level) := by
  refine (h.expr 0).bind (fun value => ?_) fun _ _ differ => ?_
  · exact direction_swaps.andThen fun _ => nullsPosition_swaps.andThen fun _ => .ret _
  · exact .bind fun _ => .bind fun _ => .ret (.field [] _ [_, _] differ)

theorem orderBy_swaps (h : level.Swaps T) :
    T.Swaps (Found (OneOf (T.At OrderItem.toJson))) (orderBy level) :=
  .after (.eat (by decide))
    ((orderItem_swaps h).commaList (shortens_of_agreement (orderItem_related h.agrees)))

theorem bound_swaps (h : level.Swaps T) : T.Swaps (T.At Bound.toJson) (bound level) := by
  refine .choose (.eat (by decide)) (.choose (.eat (by decide)) (.ret _) ?_)
    (.choose (.eat (by decide)) ?_ ((h.expr 0).bind (fun offset => ?_) fun _ _ differ => ?_))
  · exact (Swaps.require (by decide)).andThen fun _ => .ret _
  · exact (Swaps.require (by decide)).andThen fun _ => .ret _
  · exact .choose (.eat (by decide)) (.ret _) ((Swaps.require (by decide)).andThen fun _ => .ret _)
  · refine .bind fun _ => .ite (.ret (.field [] _ [] differ)) (.bind fun _ => ?_)
    exact .ret (.field [] _ [] differ)

theorem frame_swaps (h : level.Swaps T) : T.Swaps (Found (T.At Frame.toJson)) (frame level) := by
  refine (Swaps.accept (by decide)).andThen fun o => ?_
  cases o with
  | none => exact .ret none
  | some unit =>
    refine .choose (.eat (by decide)) ?_ ?_
    · refine (bound_swaps h).bind (fun start => (Swaps.require (by decide)).andThen fun _ => ?_)
        fun _ _ differ => .bind fun _ => .bind fun stop => .ret (.mk (.field [_] _ [_] differ))
      exact (bound_swaps h).bind (fun stop => .ret _) fun _ _ differ =>
        .ret (.mk (.field [_, _] _ [] differ))
    · exact (bound_swaps h).bind (fun start => .ret _) fun _ _ differ =>
        .ret (.mk (.field [_] _ [_] differ))

/-- A window in which something differs has its clauses, all the same. -/
def WindowsDiffer (T : Tails) (w w' : WindowSpec) : Prop :=
  T.At WindowSpec.toJson w w' ∧ w.hasBounds = w'.hasBounds

theorem windowSpec_swaps (h : level.Swaps T) : T.Swaps (WindowsDiffer T) (windowSpec level) := by
  refine (Swaps.after (.eat (by decide)) (values_swaps h)).bind (fun partition => ?_) ?_
  · refine (orderBy_swaps h).bind (fun order => ?_) ?_
    · refine (frame_swaps h).bind (fun frame => .ret _) ?_
      rintro _ _ ⟨differ⟩
      exact .ret ⟨.through WindowSpec.toJson_eq (.field [_, _] _ [] differ), rfl⟩
    · rintro _ _ ⟨differ⟩
      refine .bind fun frame => .ret ⟨.through WindowSpec.toJson_eq (.field [_] _ [_] ?_), rfl⟩
      exact .field [] _ [] (.items (fun _ _ => rfl) differ)
  · rintro _ _ ⟨differ⟩
    refine .bind fun order => .bind fun frame =>
      .ret ⟨.through WindowSpec.toJson_eq (.field [] _ [_, _] ?_), rfl⟩
    exact .field [] _ [] (.exprs differ)

theorem windowRef_swaps (h : scope.Swaps T) : T.Swaps (T.At Over.toJson) (windowRef scope) := by
  refine .choose (.look (Nat.zero_le 1) (by decide)) Swaps.name.mapSame ?_
  refine (Swaps.require (by decide)).andThen fun _ => ?_
  exact (Swaps.enter fun level inside => closed_swaps (windowSpec_swaps (h.inside level inside))).map
    fun _ _ differ => .field [] _ [] differ.1

theorem extractField_swaps {D : Option String → Option String → Prop} (name : String) :
    T.Swaps D (extractField name) := by
  intro b
  match b with
  | [] =>
    refine .look (Nat.le_refl 1) (by decide) fun follows => .ite ?_ (Swaps.ret none _)
    exact .accept_tail (by decide) (Swaps.ret none _)
  | [t] =>
    refine .look_tail (b := [t]) (by decide) ?_
    rw [Bool.and_false]
    exact Swaps.ret none _
  | t :: t₁ :: b =>
    refine .look (Nat.le_refl 1) (by decide) fun follows => .ite ?_ (Swaps.ret none _)
    refine .accept_cons (fun field _ => ?_) fun _ => Swaps.ret none _
    exact .skip (Swaps.ret (some field) b)

theorem argument_swaps (h : level.Swaps T) (name : String) :
    T.Swaps (Found (T.At Expr.toJson)) (argument name level) := by
  refine .choose (.look (Nat.zero_le 1) (by decide)) (.ret none) ?_
  refine .choose (.eat (by decide)) (.ret _) ?_
  refine .choose (.eat (by decide)) ?_ (.choose (.look (Nat.zero_le 1) (by decide)) ?_ ?_)
  · exact (argumentValues_swaps h).bind (fun value => .ret _) fun _ _ differ =>
      .ret (.mk (.field [] _ [] (.field [_] _ [] differ)))
  · exact h.query.bind (fun query => .ret _) fun _ _ differ =>
      .ret (.mk (.field [] _ [] (.field [] _ [] differ)))
  · refine (extractField_swaps name).andThen fun o => ?_
    cases o with
    | none =>
      exact (argumentValues_swaps h).bind (fun value => .ret _) fun _ _ differ => .ret (.mk differ)
    | some field =>
      exact (h.expr 0).bind (fun source => .ret _) fun _ _ differ =>
        .ret (.mk (.field [] _ [] (.field [_, _] _ [] differ)))

theorem functionCall_swaps (h : scope.Swaps T) (namespaces : List String) (name : String) :
    T.Swaps (T.At FunctionCall.toJson) (functionCall scope namespaces name) := by
  refine (Swaps.require (by decide)).andThen fun _ => Swaps.bind (Swaps.enter fun level inside =>
    closed_swaps (argument_swaps (h.inside level inside) name)) (fun argument => ?_) ?_
  · refine (Swaps.after (.eat (by decide)) (windowRef_swaps h)).bind (fun window => .ret _) ?_
    rintro _ _ ⟨differ⟩
    exact .ret (.through FunctionCall.toJson_eq (.field [_, _, _] _ [] differ))
  · rintro _ _ ⟨differ⟩
    exact .bind fun window => .ret (.through FunctionCall.toJson_eq (.field [_, _] _ [_] differ))

theorem path_swaps {D : List String → List String → Prop} : T.Swaps D path := by
  have steps (bound : List Token) : T.Swaps Same (pathUpTo bound) := by
    induction bound with
    | nil => exact .fail _
    | cons t bound ih =>
      refine (Swaps.expect (by decide)).andThen fun name => .ite (.ret _) ?_
      exact .choose (.eat (by decide)) (ih.andThen fun names => .ret _) (.ret _)
  have within := Swaps.bounded pathUpTo_settled steps
  exact Swaps.mono within fun _ _ differ => differ.elim

theorem typedString_swaps {D : Option String → Option String → Prop} (allowed : Bool) :
    T.Swaps D (typedString allowed) :=
  .ite (.accept (by decide)) (.ret none)

theorem named_swaps (h : scope.Swaps T) : T.Swaps (T.At Expr.toJson) (named scope) := by
  refine path_swaps.andThen fun names => ?_
  refine (Swaps.look (Nat.zero_le 1) (by decide)).andThen fun isCall => ?_
  refine .ite ((functionCall_swaps h _ _).map fun _ _ differ => .field [] _ [] differ) ?_
  refine (typedString_swaps _).andThen fun o => ?_
  cases o with
  | none => exact .ret _
  | some text => exact .ret _

theorem branch_swaps (h : level.Swaps T) : T.Swaps (T.At Branch.toJson) (branch level) := by
  refine (h.expr 0).bind (fun key => (Swaps.require (by decide)).andThen fun _ => ?_)
    fun _ _ differ => .bind fun _ => .bind fun value => .ret (.field [] _ [_] differ)
  exact (h.expr 0).bind (fun value => .ret _) fun _ _ differ => .ret (.field [_] _ [] differ)

theorem caseSubject_swaps (h : level.Swaps T) :
    T.Swaps (Found (T.At Expr.toJson)) (caseSubject level) :=
  .choose (.look (Nat.zero_le 1) (by decide)) (.ret none) ((h.expr 0).map fun _ _ => .mk)

theorem branches_swaps (h : level.Swaps T) :
    T.Swaps (OneOf (T.At Branch.toJson)) (branches level) := by
  refine (Swaps.many_after (by decide) (branch_swaps h)
    (shortens_of_agreement (branch_related h.agrees))).bind (fun _ => .ite (.fail _) (.ret _)) ?_
  intro bs bs' differ
  cases differ with
  | head as differ => exact .ret (.head as differ)
  | tail a differ => exact .ret (.tail a differ)

theorem caseExpr_swaps (h : scope.Swaps T) :
    T.SwapsAt (T.At Expr.toJson) (caseExpr scope) (t :: b) := by
  refine .skip (Swaps.enter (fun level inside => ?_) b)
  have here := h.inside level inside
  refine (caseSubject_swaps here).bind
    (fun subject => (branches_swaps here).bind (fun branches => ?_) ?_) ?_
  · refine (Swaps.after (.eat (by decide)) (here.expr 0)).bind (fun otherwise => ?_) ?_
    · exact (Swaps.require (by decide)).andThen fun _ => .ret _
    · rintro _ _ ⟨differ⟩
      exact .bind fun _ => .ret (.field [] _ [] (.field [_] _ [] (.field [_] _ [] differ)))
  · intro _ _ differ
    exact .bind fun otherwise => .bind fun _ =>
      .ret (.field [] _ [] (.field [_] _ [] (.field [] _ [_] (.items (fun _ _ => rfl) differ))))
  · rintro _ _ ⟨differ⟩
    exact .bind fun branches => .bind fun otherwise => .bind fun _ =>
      .ret (.field [] _ [] (.field [] _ [_] differ))

theorem castExpr_swaps (h : scope.Swaps T) :
    T.SwapsAt (T.At Expr.toJson) (castExpr scope) (t :: b) := by
  refine .skip ((Swaps.require (by decide)).andThen (fun _ => Swaps.enter fun level inside => ?_) b)
  have here := h.inside level inside
  refine (here.expr 0).bind (fun input => (Swaps.require (by decide)).andThen fun _ => ?_)
    fun _ _ differ => .bind fun _ => .bind fun type => .bind fun _ =>
      .ret (.field [] _ [] (.field [] _ [_] differ))
  refine (typeRef_swaps here).bind (fun type => (Swaps.require (by decide)).andThen fun _ => .ret _)
    fun _ _ differ => .bind fun _ => .ret (.field [] _ [] (.field [_] _ [] differ))

theorem arrayExpr_swaps (h : scope.Swaps T) :
    T.SwapsAt (T.At Expr.toJson) (arrayExpr scope) (t :: b) := by
  refine .skip (Swaps.choose (.eat (by decide)) (.enter fun level inside => ?_) ?_ b)
  · have here := h.inside level inside
    refine (valuesBefore_swaps here (by decide)).bind (fun values => ?_)
      fun _ _ differ => .bind fun _ => ?_
    · exact (Swaps.require (by decide)).andThen fun _ => .ret _
    · exact .ret (.field [] _ [] (.field [] _ [] (.field [] _ [] (.field [] _ [] (.exprs differ)))))
  · refine (Swaps.look (Nat.zero_le 1) (by decide)).andThen fun opened => ?_
    refine (Swaps.look (Nat.le_refl 1) (by decide)).andThen fun starts => .ite ?_ (.fail _)
    exact (parenthesizedQuery_swaps h).map fun _ _ differ => .field [] _ [] (.field [] _ [] differ)

theorem keywordOperand_swaps (h : scope.Swaps T) (keyword : String) :
    T.SwapsAt (T.At Expr.toJson) (keywordOperand scope keyword) (t :: b) := by
  refine .ite (.skip (Swaps.ret _ _)) (.ite (.skip (Swaps.ret _ _)) ?_)
  refine .ite (caseExpr_swaps h) (.ite (castExpr_swaps h) (.ite (arrayExpr_swaps h) (.ite ?_ ?_)))
  · refine .skip ((parenthesizedQuery_swaps h).map (fun _ _ differ => ?_) b)
    exact .field [] _ [] (.field [_] _ [] differ)
  · exact Swaps.fail _ _

theorem primary_swaps (h : scope.Swaps T) (t' : Token) :
    T.SwapsAt (T.At Expr.toJson) (primary scope t') (t :: b) := by
  unfold primary
  cases t'.kind with
  | literal => exact .skip (Swaps.ret _ _)
  | escapedString => exact .skip (Swaps.ret _ _)
  | parameter => exact .skip (Swaps.ret _ _)
  | openParen => exact parenthesized_swaps h
  | identifier => exact named_swaps h _
  | command => exact keywordOperand_swaps h _
  | _ => exact Swaps.fail _ _

theorem operand_swaps (h : scope.Swaps T) : T.Swaps (T.At Expr.toJson) (operand scope) := by
  have refused {tail : List Token} (head : ∀ t ∈ tail.head?, t ∈ tailHeads) :
      ∃ e, operand scope tail = .error e := by
    cases tail with
    | nil => exact ⟨_, rfl⟩
    | cons t tail =>
      have mem : t ∈ tailHeads := head t rfl
      simp only [tailHeads, List.mem_cons, List.not_mem_nil, or_false] at mem
      rcases mem with rfl | rfl | rfl <;> exact ⟨_, rfl⟩
  intro b
  cases b with
  | nil =>
    obtain ⟨_, failed⟩ := refused T.left_head
    obtain ⟨_, failed'⟩ := refused T.right_head
    unfold SwapsAt
    rw [List.nil_append, List.nil_append, failed, failed']
    exact .error
  | cons t b =>
    unfold SwapsAt
    cases unary : Power.unary? t with
    | some power =>
      rw [List.cons_append, List.cons_append, operand_sign unary, operand_sign unary]
      have signed : T.Swaps (T.At Expr.toJson) (.unary t.text <$> scope.here.expr power) :=
        (h.here.expr power).map fun _ _ differ => .field [] _ [] (.field [_] _ [] differ)
      exact signed b
    | none =>
      rw [List.cons_append, List.cons_append, operand_primary unary, operand_primary unary]
      exact primary_swaps h t

/-- An operator with a left operand that differs. -/
theorem apply_differs {e e' : Expr} (differ : T.At Expr.toJson e e') (s : Suffix) :
    T.At Expr.toJson (s.apply e) (s.apply e') := by
  cases s with
  | cast type => exact .field [] _ [] (.field [] _ [_] differ)
  | between negated lower upper => exact .field [] _ [] (.field [] _ [_, _, _] differ)
  | binary operator right => exact .field [] _ [] (.field [] _ [_, _] differ)

theorem foldl_apply_differs {e e' : Expr} (differ : T.At Expr.toJson e e') (ss : List Suffix) :
    T.At Expr.toJson (ss.foldl Suffix.apply e) (ss.foldl Suffix.apply e') := by
  induction ss generalizing e e' with
  | nil => exact differ
  | cons s ss ih => exact ih (apply_differs differ s)

theorem suffixes_differ {ss ss' : List Suffix} (differ : OneOf T.Suffixes ss ss') (e : Expr) :
    T.At Expr.toJson (ss.foldl Suffix.apply e) (ss'.foldl Suffix.apply e) := by
  induction differ generalizing e with
  | head ss differ => exact foldl_apply_differs (differ e) ss
  | tail s _ ih => exact ih (s.apply e)

theorem expression_swaps (h : scope.Swaps T) (floor : Nat) :
    T.Swaps (T.At Expr.toJson) (expression scope floor) := by
  have taking : Takes (suffix scope floor) := .of_accept rfl fun o => by
    cases o with
    | none => exact shortens_ret
    | some found =>
      exact shortens_of_agreement ((operatorSuffix_related h.agrees found.1 found.2).map some)
  refine (operand_swaps h).bind (fun first => ?_) fun _ _ differ => ?_
  · exact ((suffix_swaps h floor).many taking).bind (fun _ => .ret _) fun _ _ differ =>
      .ret (suffixes_differ differ first)
  · exact .bind fun suffixes => .ret (foldl_apply_differs differ suffixes)

end Grammar

end SqlQuery
