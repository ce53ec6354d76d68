import SqlQuery.Proofs.Parser.Follows

/-!
The parser of expressions follows the grammar, rule by rule. Every level that is opened by hand is
closed by hand on each way to a result.
-/

namespace SqlQuery

open Rule

/-- What the parser calls follows the levels of the grammar, and closes a level as it should where one
is open. -/
structure Calls.Follow (fuel : Nat) (calls : Calls) : Prop where
  expr : ∀ floor, Parser.Follows fuel (calls.expr floor) fun n => (Grammar.levelAt n).expr floor
  query : Parser.Follows fuel calls.query fun n => (Grammar.levelAt n).query
  leave : Parser.ClosesOpen calls.leave

namespace Parser

open Grammar (levelAt scopeAt)

variable {fuel : Nat} {calls : Calls} {α β : Type}

theorem scopeAt_here (n : Nat) : (scopeAt n).here = levelAt n := by
  cases n <;> rfl

theorem closeParen_follows : Follows fuel closeParen fun _ => Rule.closeParen := .require _ _

theorem startsQuery_follows (n : Nat) : Follows fuel (startsQuery n) fun _ => Grammar.startsQuery n :=
  .look n _

theorem values_follows (h : calls.Follow fuel) :
    Follows fuel (values calls) fun n => Grammar.values (levelAt n) :=
  (h.expr 0).commaList

theorem valuesBefore_follows (h : calls.Follow fuel) (close : Kind) :
    Follows fuel (valuesBefore close calls) fun n => Grammar.valuesBefore close (levelAt n) :=
  (Follows.check _).choose (.ret []) (values_follows h)

theorem argumentValues_follows (h : calls.Follow fuel) :
    Follows fuel (argumentValues calls) fun n => Grammar.argumentValues (levelAt n) := by
  apply (values_follows h).bind
  intro values
  rcases values with _ | ⟨value, _ | ⟨other, more⟩⟩ <;> exact .ret _

/-- A query in parentheses, after the opening one. -/
theorem nestedQuery_closes (h : calls.Follow fuel) {p : Query → Parser α}
    {next : Query → Nat → Rule α} (following : ∀ query, Follows fuel (p query) (next query)) :
    Closes fuel
      (calls.query >>= fun query => closeParen >>= fun _ => calls.leave >>= fun _ => p query)
      (fun n => Grammar.nestedQuery (levelAt n)) next :=
  .bind h.query fun query => .bind closeParen_follows fun _ => .leave h.leave (following query)

theorem parenthesizedQuery_follows (h : calls.Follow fuel) :
    Follows fuel (parenthesizedQuery calls) fun n => Grammar.parenthesizedQuery (scopeAt n) := by
  apply (Follows.require _ _).bind
  intro _
  exact .enter (nestedQuery_closes h fun query => .ret _)

theorem parenthesized_follows (h : calls.Follow fuel) :
    Follows fuel (parenthesized calls) fun n => Grammar.parenthesized (scopeAt n) := by
  apply (startsQuery_follows 1).choose (parenthesizedQuery_follows h)
  apply Follows.advance.bind
  intro _
  apply Follows.enter
  apply Closes.bind (values_follows h)
  intro values
  apply Closes.bind closeParen_follows
  intro _
  apply Closes.leave h.leave
  rcases values with _ | ⟨value, _ | ⟨other, more⟩⟩ <;> exact .ret _

theorem membership_follows (h : calls.Follow fuel) (power : Nat) :
    Follows fuel (membership calls power) fun n => Grammar.membership (scopeAt n) power := by
  apply (Follows.check _).bind
  intro opened
  apply (startsQuery_follows 1).bind
  intro starts
  apply Follows.ite
  · simpa only [scopeAt_here] using h.expr power
  apply Follows.advance.bind
  intro _
  apply Follows.enter_map
  apply Closes.bind (valuesBefore_follows h _)
  intro values
  exact .bind closeParen_follows fun _ => .leave h.leave (.ret _)

theorem timeZone_follows : Follows fuel timeZone fun _ => Grammar.timeZone := by
  apply (Follows.look 1 _).bind
  intro time
  apply (Follows.look 2 _).bind
  intro zone
  apply Follows.ite _ (.ret _)
  apply (Follows.eat _).choose
  · exact Follows.advance.bind fun _ => Follows.advance.bind fun _ => .ret _
  apply (Follows.eat _).choose _ (.ret _)
  exact Follows.advance.bind fun _ => Follows.advance.bind fun _ => .ret _

theorem typeSuffix_follows (name : String) :
    Follows fuel (typeSuffix name) fun _ => Grammar.typeSuffix name := by
  apply Follows.ite ((Follows.eat _).choose (.ret _) (.ret _))
  apply Follows.ite ((Follows.eat _).choose (.ret _) (.ret _))
  exact .ite timeZone_follows (.ret _)

theorem typeRef_follows (h : calls.Follow fuel) :
    Follows fuel (typeRef calls) fun n => Grammar.typeRef (levelAt n) := by
  apply (Follows.expect _ _).bind
  intro name
  apply (typeSuffix_follows name).bind
  intro suffix
  have list : Follows fuel (values calls >>= fun values => closeParen >>= fun _ =>
      pure (Expr.list values)) fun n => Grammar.values (levelAt n) >>= fun values =>
        Rule.closeParen >>= fun _ => pure (.list values) :=
    (values_follows h).bind fun values => closeParen_follows.bind fun _ => .ret _
  exact ((Follows.eat _).after list).bind fun argument => .ret _

theorem operatorSuffix_follows (h : calls.Follow fuel) (operator : String) (power : Nat) :
    Follows fuel (operatorSuffix calls operator power) fun n =>
      Grammar.operatorSuffix (scopeAt n) operator power := by
  have type := typeRef_follows h
  have operand := h.expr power
  simp only [← scopeAt_here] at type operand
  apply Follows.ite (type.map _)
  apply Follows.ite
  · apply operand.bind
    intro lower
    apply (Follows.require _ _).bind
    intro _
    exact operand.bind fun upper => .ret _
  exact .ite ((membership_follows h power).map _) (operand.map _)

theorem suffix_follows (h : calls.Follow fuel) (floor : Nat) :
    Follows fuel (suffix calls floor) fun n => Grammar.suffix (scopeAt n) floor := by
  apply (Follows.accept _).bind
  intro found
  cases found with
  | none => exact .ret none
  | some found => exact (operatorSuffix_follows h found.1 found.2).map some

theorem direction_follows : Follows fuel direction fun _ => Grammar.direction :=
  (Follows.eat _).choose (.ret _) ((Follows.eat _).bind fun _ => .ret _)

theorem nullsPosition_follows : Follows fuel nullsPosition fun _ => Grammar.nullsPosition :=
  (Follows.eat _).choose (.ret _) ((Follows.eat _).choose (.ret _) (.ret _))

theorem orderItem_follows (h : calls.Follow fuel) :
    Follows fuel (orderItem calls) fun n => Grammar.orderItem (levelAt n) :=
  (h.expr 0).bind fun value => direction_follows.bind fun direction =>
    nullsPosition_follows.bind fun nulls => .ret (OrderItem.mk value direction nulls)

theorem orderBy_follows (h : calls.Follow fuel) :
    Follows fuel (orderBy calls) fun n => Grammar.orderBy (levelAt n) :=
  (Follows.eat _).after (orderItem_follows h).commaList

theorem bound_follows (h : calls.Follow fuel) :
    Follows fuel (bound calls) fun n => Grammar.bound (levelAt n) := by
  apply (Follows.eat _).choose
  · apply (Follows.eat _).choose (.ret _)
    exact (Follows.require _ _).bind fun _ => .ret _
  apply (Follows.eat _).choose
  · exact (Follows.require _ _).bind fun _ => .ret _
  apply (h.expr 0).bind
  intro offset
  apply (Follows.eat _).choose (.ret _)
  exact (Follows.require _ _).bind fun _ => .ret _

theorem frame_follows (h : calls.Follow fuel) :
    Follows fuel (frame calls) fun n => Grammar.frame (levelAt n) := by
  apply (Follows.accept _).bind
  intro found
  cases found with
  | none => exact .ret none
  | some unit =>
    apply (Follows.eat _).choose
    · apply (bound_follows h).bind
      intro start
      apply (Follows.require _ _).bind
      intro _
      exact (bound_follows h).bind fun stop => .ret _
    · exact (bound_follows h).bind fun start => .ret _

theorem windowSpec_follows (h : calls.Follow fuel) :
    Follows fuel (windowSpec calls) fun n => Grammar.windowSpec (levelAt n) :=
  ((Follows.eat _).after (values_follows h)).bind fun partition =>
    (orderBy_follows h).bind fun order => (frame_follows h).bind fun frame =>
      .ret (WindowSpec.mk partition order frame)

theorem windowRef_follows (h : calls.Follow fuel) :
    Follows fuel (windowRef calls) fun n => Grammar.windowRef (scopeAt n) := by
  apply (Follows.check _).choose (Follows.name.map _)
  apply (Follows.require _ _).bind
  intro _
  apply Follows.enter_map
  apply Closes.bind (windowSpec_follows h)
  intro spec
  exact .bind closeParen_follows fun _ => .leave h.leave (.ret _)

theorem extractField_follows (name : String) :
    Follows fuel (extractField name) fun _ => Grammar.extractField name := by
  apply (Follows.look 1 _).bind
  intro follows
  apply Follows.ite _ (.ret none)
  apply (Follows.accept _).bind
  intro field
  exact .ite (Follows.advance.bind fun _ => .ret field) (.ret field)

theorem argument_follows (h : calls.Follow fuel) (name : String) :
    Follows fuel (argument name calls) fun n => Grammar.argument name (levelAt n) := by
  apply (Follows.check _).choose (.ret none)
  apply (Follows.eat _).choose (.ret _)
  apply (Follows.eat _).choose ((argumentValues_follows h).bind fun value => .ret _)
  apply (startsQuery_follows 0).choose (h.query.bind fun query => .ret _)
  apply (extractField_follows name).bind
  intro found
  cases found with
  | some field => exact (h.expr 0).bind fun source => .ret _
  | none => exact (argumentValues_follows h).bind fun value => .ret _

theorem functionCall_follows (h : calls.Follow fuel) (namespaces : List String) (name : String) :
    Follows fuel (functionCall calls namespaces name) fun n =>
      Grammar.functionCall (scopeAt n) namespaces name := by
  apply (Follows.require _ _).bind
  intro _
  apply Follows.enter
  apply Closes.bind (argument_follows h name)
  intro argument
  apply Closes.bind closeParen_follows
  intro _
  apply Closes.leave h.leave
  exact ((Follows.eat _).after (windowRef_follows h)).bind fun _ => .ret _

theorem pathUpTo_follows (bound : List Token) :
    Follows fuel (pathUpTo bound.length) fun _ => Grammar.pathUpTo bound := by
  induction bound with
  | nil => exact .fail _
  | cons t bound ih =>
    apply (Follows.expect _ _).bind
    intro name
    apply Follows.ite (.ret _)
    exact (Follows.eat _).choose (ih.bind fun names => .ret _) (.ret _)

theorem path_follows : Follows fuel path fun _ => Grammar.path := by
  intro s within enough
  have bounded := pathUpTo_follows s.rest s within enough
  rw [Session.rest_length] at bounded
  exact bounded

theorem typedString_follows (allowed : Bool) :
    Follows fuel (typedString allowed) fun _ => Grammar.typedString allowed :=
  .ite (.accept _) (.ret none)

theorem named_follows (h : calls.Follow fuel) :
    Follows fuel (named calls) fun n => Grammar.named (scopeAt n) := by
  apply path_follows.bind
  intro names
  apply (Follows.check _).bind
  intro isCall
  apply Follows.ite ((functionCall_follows h _ _).map _)
  apply (typedString_follows _).bind
  intro found
  cases found with
  | none => exact .ret _
  | some text => exact .ret _

theorem branch_follows (h : calls.Follow fuel) :
    Follows fuel (branch calls) fun n => Grammar.branch (levelAt n) :=
  (h.expr 0).bind fun key => (Follows.require _ _).bind fun _ => (h.expr 0).bind fun value =>
    .ret (Branch.mk key value)

theorem caseSubject_follows (h : calls.Follow fuel) :
    Follows fuel (caseSubject calls) fun n => Grammar.caseSubject (levelAt n) :=
  (Follows.check _).choose (.ret none) ((h.expr 0).map some)

theorem branches_follows (h : calls.Follow fuel) :
    Follows fuel (branches calls) fun n => Grammar.branches (levelAt n) := by
  have gathered := ((Follows.eat (fun t => t.isCommand "when")).after (branch_follows h)).gather_list []
  simp only [List.nil_append, id_map'] at gathered
  exact gathered.bind fun branches => .ite (.fail _) (.ret branches)

theorem caseExpr_follows (h : calls.Follow fuel) :
    Follows fuel (caseExpr calls) fun n => Grammar.caseExpr (scopeAt n) := by
  apply Follows.advance.bind
  intro _
  apply Follows.enter_last
  apply Closes.bind (caseSubject_follows h)
  intro subject
  apply Closes.bind (branches_follows h)
  intro branches
  apply Closes.bind ((Follows.eat _).after (h.expr 0))
  intro otherwise
  exact .bind (.require _ _) fun _ => .leave h.leave (.ret _)

theorem castExpr_follows (h : calls.Follow fuel) :
    Follows fuel (castExpr calls) fun n => Grammar.castExpr (scopeAt n) := by
  apply Follows.advance.bind
  intro _
  apply (Follows.require _ _).bind
  intro _
  apply Follows.enter_last
  apply Closes.bind (h.expr 0)
  intro input
  apply Closes.bind (Follows.require _ _)
  intro _
  apply Closes.bind (typeRef_follows h)
  intro type
  exact .bind closeParen_follows fun _ => .leave h.leave (.ret _)

theorem arrayExpr_follows (h : calls.Follow fuel) :
    Follows fuel (arrayExpr calls) fun n => Grammar.arrayExpr (scopeAt n) := by
  apply Follows.advance.bind
  intro _
  apply (Follows.eat _).choose
  · apply Follows.enter_last
    apply Closes.bind (valuesBefore_follows h _)
    intro values
    exact .bind (.require _ _) fun _ => .leave h.leave (.ret _)
  apply (Follows.check _).bind
  intro opened
  apply (startsQuery_follows 1).bind
  intro starts
  exact .ite ((parenthesizedQuery_follows h).map _) (.fail _)

theorem keywordOperand_follows (h : calls.Follow fuel) (keyword : String) :
    Follows fuel (keywordOperand calls keyword) fun n =>
      Grammar.keywordOperand (scopeAt n) keyword := by
  apply Follows.ite (Follows.advance.bind fun _ => .ret _)
  apply Follows.ite (Follows.advance.bind fun _ => .ret _)
  apply Follows.ite (caseExpr_follows h)
  apply Follows.ite (castExpr_follows h)
  apply Follows.ite (arrayExpr_follows h)
  apply Follows.ite _ (.fail _)
  exact Follows.advance.bind fun _ => (parenthesizedQuery_follows h).map _

theorem primary_follows (h : calls.Follow fuel) (t : Token) :
    Follows fuel (primary calls t) fun n => Grammar.primary (scopeAt n) t := by
  unfold primary Grammar.primary
  cases t.kind with
  | literal => exact Follows.advance.bind fun _ => .ret _
  | escapedString => exact Follows.advance.bind fun _ => .ret _
  | parameter => exact Follows.advance.bind fun _ => .ret _
  | openParen => exact parenthesized_follows h
  | identifier => exact named_follows h
  | command => exact keywordOperand_follows h _
  | _ => exact .fail _

theorem operand_follows (h : calls.Follow fuel) :
    Follows fuel (operand calls) fun n => Grammar.operand (scopeAt n) := by
  apply Follows.current_bind
  intro found
  cases found with
  | none => exact .fail _
  | some l =>
    simp only [Option.map_some]
    cases Power.unary? l.toToken with
    | none => exact primary_follows h l.toToken
    | some power =>
      have operand := h.expr power
      simp only [← scopeAt_here] at operand
      exact Follows.advance.bind fun _ => operand.map _

theorem expression_follows (h : calls.Follow fuel) (floor : Nat) :
    Follows fuel (expression calls floor) fun n => Grammar.expression (scopeAt n) floor := by
  apply (operand_follows h).bind
  intro first
  exact ((suffix_follows h floor).gather Grammar.Suffix.apply first).congr fun n => rfl

end Parser

end SqlQuery
