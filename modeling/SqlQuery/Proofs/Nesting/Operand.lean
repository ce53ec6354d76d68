import SqlQuery.Grammar.Query
import SqlQuery.Proofs.Nesting.Rise
import SqlQuery.Proofs.Parsed.Grouping
import SqlQuery.Proofs.Relation.Expression
import SqlQuery.Proofs.Rule.Agreement

/-!
What the rules for expressions make needs no more levels than the rules may open.
-/

namespace SqlQuery

variable {T : Token → Prop} {most : Nat}

structure Level.Affords (T : Token → Prop) (most : Nat) (level : Level) : Prop where
  expr : ∀ floor, Rule.Makes T (level.expr floor) fun e => e.toll + 1 ≤ most
  query : Rule.Makes T level.query fun q => q.need + 1 ≤ most

structure Scope.Affords (T : Token → Prop) (most : Nat) (scope : Scope) : Prop where
  here : scope.here.Affords T most
  inside : ∀ level, scope.inside = some level → ∃ fewer, most = fewer + 1 ∧ level.Affords T fewer

/-- With the level inside, one level less is left. -/
theorem Scope.Affords.enter {α : Type} {scope : Scope} {rule : Level → Rule α} {Q : α → Prop}
    (h : scope.Affords T most)
    (makes : ∀ fewer level, most = fewer + 1 → level.Affords T fewer → Rule.Makes T (rule level) Q) :
    Rule.Makes T (scope.enter rule) Q := by
  refine Rule.Makes.enter fun level inside => ?_
  obtain ⟨fewer, rfl, affords⟩ := h.inside level inside
  exact makes fewer level rfl affords

namespace Grammar

open Rule Node Child

variable {level : Level} {scope : Scope}

section Values

theorem list_need {es : List Expr} (h : ∀ e ∈ es, e.toll + 1 ≤ most) :
    (Node.expr (.list es)).toll ≤ most := by
  refine need_le_of_children (forall_each.2 fun e mem => ?_)
  have := h e mem
  change 1 + e.toll ≤ most
  omega

theorem values_needs (h : level.Affords T most) :
    Makes T (values level) fun es => ∀ e ∈ es, e.toll + 1 ≤ most :=
  (h.expr 0).commaList.post fun _ => And.right

theorem valuesBefore_needs (h : level.Affords T most) (close : Kind) :
    Makes T (valuesBefore close level) fun es => ∀ e ∈ es, e.toll + 1 ≤ most :=
  .choose (.look _ _) (.ret nofun) (values_needs h)

/-- A list needs no level where its values need one. -/
theorem argumentValues_needs (h : level.Affords T most) : Makes T (argumentValues level) fun e =>
    (Node.expr e).listedRise + e.toll ≤ most := by
  refine (values_needs h).bind fun es fit => ?_
  split
  · rename_i e
    have one := fit e List.mem_cons_self
    have le : (Node.expr e).listedRise ≤ 1 := by unfold listedRise; split <;> decide
    exact .ret (by omega)
  · exact .ret ((Nat.zero_add _).trans_le (list_need fit))

theorem nestedQuery_needs (h : level.Affords T most) :
    Makes T (nestedQuery level) fun q => q.need + 1 ≤ most :=
  h.query.bind fun _ within => (Makes.require _ _).pass fun _ => .ret within

theorem inlineQuery_need {q : Query} (h : q.need + 2 ≤ most) : (Expr.inlineQuery q).toll ≤ most := by
  refine need_le_of_children (List.forall_mem_singleton.2 ?_)
  change 2 + q.need ≤ most
  omega

theorem parenthesizedQuery_needs (h : scope.Affords T most) :
    Makes T (parenthesizedQuery scope) fun e => e.toll ≤ most := by
  refine (Makes.require _ _).pass fun _ => Makes.map (h.enter fun fewer level same affords => ?_)
  exact (nestedQuery_needs affords).post fun q within => inlineQuery_need (by omega)

theorem tuple_need {es : List Expr} (h : ∀ e ∈ es, e.toll + 2 ≤ most) (some : 1 ≤ most) :
    (Expr.tuple es).toll ≤ most := by
  have need : (Node.expr (.tuple es)).need ≤ most - 1 := by
    refine need_le_of_children (forall_each.2 fun e mem => ?_)
    have := h e mem
    change 1 + e.toll ≤ most - 1
    omega
  change (Node.expr (.tuple es)).need + 1 ≤ most
  omega

theorem paren_need {e : Expr} (h : e.toll + 2 ≤ most) : (Expr.paren e).toll ≤ most := by
  refine need_le_of_children (List.forall_mem_singleton.2 ?_)
  change 2 + e.toll ≤ most
  omega

theorem parenthesized_needs (h : scope.Affords T most) :
    Makes T (parenthesized scope) fun e => e.toll ≤ most := by
  refine .choose (.look _ _) (parenthesizedQuery_needs h) (Makes.skip.pass fun _ => ?_)
  refine Makes.bind (Q := fun es => 1 ≤ most ∧ ∀ e ∈ es, e.toll + 2 ≤ most)
    (h.enter fun fewer level same affords => ?_) fun es fit => ?_
  · refine (values_needs affords).bind fun es fit => (Makes.require _ _).pass fun _ => ?_
    exact .ret ⟨by omega, fun e mem => by have := fit e mem; omega⟩
  · split
    · exact .ret (paren_need (fit.2 _ List.mem_cons_self))
    · exact .ret (tuple_need fit.2 fit.1)

/-- A list on the right side of `in` takes the level of a tuple, and a value there one like any other. -/
theorem membership_needs (h : scope.Affords T most) (power : Nat) : Makes T (membership scope power)
    fun e => e.toll + (if e.isTuple then 0 else 1) ≤ most := by
  refine (Makes.look _ _).pass fun _ => (Makes.look _ _).pass fun _ => .ite (fun _ => ?_) fun _ => ?_
  · refine (h.here.expr power).post fun e fit => ?_
    split <;> omega
  refine Makes.skip.pass fun _ => Makes.map (h.enter fun fewer level same affords => ?_)
  refine (valuesBefore_needs affords _).bind fun es fit => (Makes.require _ _).pass fun _ => ?_
  exact .ret (tuple_need (fun e mem => by have := fit e mem; omega) (by omega))

theorem typeRef_needs (h : level.Affords T most) :
    Makes T (typeRef level) fun ref => (Node.expr (.type ref)).toll ≤ most := by
  refine (Makes.expect.post fun _ _ => trivial).pass fun name => (typeSuffix_related name).makes.pass fun words => ?_
  refine (Makes.after (Makes.eat _) (Q := fun e => (Node.expr e).toll ≤ most) ?_).bind
    fun argument fit => .ret ?_
  · exact (values_needs h).bind fun es fit => (Makes.require _ _).pass fun _ => .ret (list_need fit)
  refine need_le_of_children (List.forall_mem_cons.2 ⟨by simp [partRise], forall_maybe.2 fun e mem => ?_⟩)
  simpa [partRise] using fit e mem

end Values

section Suffixes

/-- Two colons come only after an operand that is written in front of them, or a test. -/
theorem isPrimary_of_edge {e : Expr} (h : e.IsParsed T) (edge : Power.cast < e.edge) :
    e.isPrimary ∨ e.isTest := by
  obtain ⟨isValue, all⟩ := h
  have own : e.Parsed T := (allParsed_iff.1 all).1
  match e with
  | .unary operator operand =>
    have tight : ∀ entry ∈ Power.prefixes, entry.2 ≤ Power.cast := by decide
    have other : operator ≠ "distinct" := by simpa [Expr.isValue] using isValue
    have isOperand := own.resolve_left other
    rw [Expr.edge] at edge
    cases found : Power.prefix? operator with
    | some power =>
      simp only [found] at edge
      have := tight _ (Power.prefix?_mem found)
      omega
    | none =>
      rw [Expr.IsOperand, found] at isOperand
      exact .inr (beq_iff_eq.2 isOperand.1)
  | .binary left operator right =>
    have other : operator ≠ "from" := by simpa [Expr.isValue] using isValue
    obtain ⟨power, known, plain, _⟩ := own.resolve_left fun call => other call.1
    have below := power_lt_cast known plain
    rw [Expr.edge, Power.infixPower, known, Option.getD_some] at edge
    split at edge
    · rename_i list
      exact .inr list
    · omega
  | .between operand lower upper negated =>
    rw [Expr.edge] at edge
    have : Power.between + 1 ≤ Power.cast := by decide
    omega
  | .raw _ | .type _ | .list _ => cases isValue
  | .literal _ | .column _ | .function _ | .parameter _ | .array _ | .tuple _ | .case _ _
  | .cast _ _ | .paren _ | .specifiedString _ _ | .inlineQuery _ => exact .inl rfl

/-- What stands to the right of the operator needs no more levels, whatever stands to its left. -/
def Suffix.Affords (T : Token → Prop) (most power : Nat) (s : Suffix) : Prop :=
  ∀ e : Expr, e.IsParsed T → power < e.edge → e.toll ≤ most → (s.apply e).toll ≤ most

theorem cast_affords {ref : TypeRef} (type : (Node.expr (.type ref)).toll ≤ most) :
    (Suffix.cast ref).Affords T most Power.cast := by
  intro e parsed edge operand
  rw [Suffix.apply]
  rcases isPrimary_of_edge parsed edge with primary | test
  · refine need_le_of_children (forall_pair.2 ⟨?_, ?_⟩)
    · simpa [partRise, primary] using operand
    · simpa [partRise, primary] using type
  · have late : (Node.expr (.cast e ref)).isLate = true := test
    refine most_le_iff.2 (forall_pair.2 ⟨?_, ?_⟩)
    · rw [leastRise, if_pos late, Nat.zero_add]
      exact Nat.le_trans (need_le_toll _) operand
    · rw [leastRise, if_pos late, Nat.zero_add]
      exact type

theorem between_affords {lower upper : Expr} {negated : Bool} {power : Nat}
    (first : lower.toll + 1 ≤ most) (second : upper.toll + 1 ≤ most) :
    (Suffix.between negated lower upper).Affords T most power := by
  intro e _ _ operand
  rw [Suffix.apply]
  refine need_le_of_children (List.forall_mem_cons.2 ⟨?_, forall_pair.2 ⟨?_, ?_⟩⟩)
  · simpa [partRise] using operand
  · simpa [partRise, Nat.add_comm] using first
  · simpa [partRise, Nat.add_comm] using second

theorem binary_affords {operator : String} {right : Expr} {power : Nat}
    (fit : right.toll + (if Power.isMembership operator ∧ right.isTuple then 0 else 1) ≤ most) :
    (Suffix.binary operator right).Affords T most power := by
  intro e _ _ operand
  rw [Suffix.apply]
  refine need_le_of_children (List.forall_mem_cons.2 ⟨?_, forall_pair.2 ⟨?_, ?_⟩⟩)
  · simpa [partRise] using operand
  · simp [partRise]
  · change partRise _ ("right", _) + right.toll ≤ most
    simp only [partRise, true_and]
    split at fit <;> split <;> first | omega | simp_all

theorem operatorSuffix_needs (h : scope.Affords T most) {operator : String} {power : Nat}
    (known : Power.infix? operator = some power) :
    Makes T (operatorSuffix scope operator (power + 1)) (Suffix.Affords T most power) := by
  refine .ite (fun same => Makes.map ?_) fun _ => .ite (fun _ => ?_) fun _ =>
    .ite (fun isIn => Makes.map ?_) fun _ => Makes.map ?_
  · rw [beq_iff_eq.1 same] at known
    obtain rfl : Power.cast = power := Option.some.inj (.trans (by decide) known)
    exact (typeRef_needs h.here).post fun ref => cast_affords
  · refine (h.here.expr _).bind fun lower first => (Makes.require _ _).pass fun _ => ?_
    exact (h.here.expr _).bind fun upper second => .ret (between_affords first second)
  · have member : Power.isMembership operator = true := isIn
    refine (membership_needs h _).post fun right fit => binary_affords ?_
    simpa only [member, true_and] using fit
  · refine (h.here.expr _).post fun right fit => binary_affords ?_
    split <;> omega

/-- The value goes on with the operator that comes next, if it goes on. -/
theorem suffix_needs (h : scope.Affords T most) (floor : Nat) (e : Expr) :
    Gets T (fun ts => e.Grown T floor ts ∧ e.toll ≤ most) (suffix scope floor) fun o _ =>
      (o.elim e fun s => s.apply e).toll ≤ most := by
  refine Gets.bind (Gets.accept (V := fun _ => e.toll ≤ most) (Q := fun found _ => ∃ power,
    Power.infix? found.1 = some power ∧ found.2 = power + 1 ∧ e.IsParsed T ∧ power < e.edge ∧
      e.toll ≤ most) ?_ fun _ reading _ => reading.2) fun o => ?_
  · intro t ts found _ reading accepted
    obtain ⟨grown, operand⟩ := reading
    obtain ⟨power, binary, known, _, right⟩ := operatorFrom_eq accepted
    exact ⟨power, known, right, grown.toIsParsed, grown.stops t rfl power binary, operand⟩
  cases o with
  | none => exact Gets.ret fun _ fit => fit
  | some found =>
    obtain ⟨operator, right⟩ := found
    refine Gets.given ?_
    rintro ⟨power, known, rfl, parsed, edge, operand⟩
    exact Makes.map ((operatorSuffix_needs h known).post fun s affords => affords e parsed edge operand)

theorem suffixes_needs (sound : scope.Sound T) (h : scope.Affords T most) (floor : Nat) (e : Expr) :
    Gets T (fun ts => e.Grown T floor ts ∧ e.toll ≤ most) (many (suffix scope floor))
      fun suffixes _ => (suffixes.foldl Suffix.apply e).toll ≤ most := by
  refine Gets.many (I := fun suffixes ts => (suffixes.foldl Suffix.apply e).Grown T floor ts ∧
    (suffixes.foldl Suffix.apply e).toll ≤ most) (fun suffixes => ?_)
    (fun ts s rest => suffix_shorter sound) fun _ read => read.2
  have goesOn := ((suffix_sound sound floor (suffixes.foldl Suffix.apply e)).and
    (suffix_needs h floor (suffixes.foldl Suffix.apply e))).pre fun _ reading => ⟨reading.1, reading⟩
  refine goesOn.post fun o rest next => ?_
  cases o with
  | none => exact next.2
  | some s => simpa [Suffix.Continues] using next

end Suffixes

section Windows

theorem orderItem_needs (h : level.Affords T most) :
    Makes T (orderItem level) fun i => (Node.orderItem i).toll ≤ most := by
  refine (h.expr 0).bind fun e fit => direction_related.makes.pass fun _ => ?_
  refine nullsPosition_related.makes.pass fun _ => .ret (need_le_of_children ?_)
  exact List.forall_mem_singleton.2 ((Nat.add_comm _ _).trans_le fit)

theorem orderBy_needs (h : level.Affords T most) :
    Makes T (orderBy level) fun o => ∀ items ∈ o, (Node.orderBy items).toll ≤ most := by
  refine (Makes.after (Makes.eat _) (orderItem_needs h).commaList).post fun o each items mem => ?_
  exact need_le_of_children (forall_each.2 fun i inside =>
    (Nat.zero_add _).trans_le ((each items mem).2 i inside))

theorem partitionBy_need {es : List Expr} (h : ∀ e ∈ es, e.toll + 1 ≤ most) :
    (Node.partitionBy es).toll ≤ most :=
  need_le_of_children (forall_each.2 fun e mem => (Nat.add_comm _ _).trans_le (h e mem))

theorem bound_needs (h : level.Affords T most) :
    Makes T (bound level) fun b => ∀ e ∈ b.offset?, e.toll + 1 ≤ most := by
  refine .choose (.eat _) (.choose (.eat _) (.ret nofun) ?_) (.choose (.eat _) ?_ ?_)
  · exact (Makes.require _ _).pass fun _ => .ret nofun
  · exact (Makes.require _ _).pass fun _ => .ret nofun
  refine (h.expr 0).bind fun e fit => .choose (.eat _) ?_ ?_
  · exact .ret fun b same => Option.some.inj same ▸ fit
  · exact (Makes.require _ _).pass fun _ => .ret fun b same => Option.some.inj same ▸ fit

theorem frame_need {f : Frame} (start : ∀ e ∈ f.start.offset?, e.toll + 1 ≤ most)
    (stop : ∀ b ∈ f.stop, ∀ e ∈ b.offset?, e.toll + 1 ≤ most) : (Node.frame f).toll ≤ most := by
  refine need_le_of_children (List.forall_mem_append.2 ⟨forall_maybe.2 fun e mem => ?_,
    forall_maybe.2 fun e mem => ?_⟩)
  · exact (Nat.add_comm _ _).trans_le (start e mem)
  · obtain ⟨b, mem, mem'⟩ := Option.bind_eq_some_iff.1 mem
    exact (Nat.add_comm _ _).trans_le (stop b mem e mem')

theorem frame_needs (h : level.Affords T most) :
    Makes T (frame level) fun o => ∀ f ∈ o, (Node.frame f).toll ≤ most := by
  refine (Makes.accept.post fun _ _ => trivial).pass fun o => ?_
  cases o with
  | none => exact .ret nofun
  | some unit =>
    refine .choose (.eat _) ?_ ?_
    · refine (bound_needs h).bind fun start first => (Makes.require _ _).pass fun _ => ?_
      refine (bound_needs h).bind fun stop second => .ret fun f same => Option.some.inj same ▸ ?_
      exact frame_need first fun b same => Option.some.inj same ▸ second
    · refine (bound_needs h).bind fun start first => .ret fun f same => Option.some.inj same ▸ ?_
      exact frame_need first nofun

theorem windowSpec_needs (h : level.Affords T most) :
    Makes T (windowSpec level) fun w => (Node.windowSpec w).toll ≤ most := by
  refine (Makes.after (Makes.eat _) (values_needs h)).bind fun partition parts => ?_
  refine (orderBy_needs h).bind fun order ordered => (frame_needs h).bind fun frame framed => ?_
  refine .ret (need_le_of_children ?_)
  simp only [Node.children, List.forall_mem_append, forall_maybe, partRise, Nat.zero_add]
  exact ⟨⟨fun es mem => partitionBy_need (parts es mem), ordered⟩, framed⟩

theorem windowRef_needs (h : scope.Affords T most) :
    Makes T (windowRef scope) fun o => (Node.overClause o).toll ≤ most := by
  refine .choose (.look _ _) (Makes.map (Makes.name.post fun name _ => ?_)) ?_
  · exact need_le_of_children (List.forall_mem_singleton.2 (by simp [partRise]))
  refine (Makes.require _ _).pass fun _ => Makes.map (h.enter fun fewer level same affords => ?_)
  refine (windowSpec_needs affords).bind fun w within => (Makes.require _ _).pass fun _ => .ret ?_
  refine need_le_of_children (List.forall_mem_singleton.2 ?_)
  change 1 + (Node.windowSpec w).toll ≤ most
  omega

end Windows

section Calls

/-- What stands between the parentheses of a call is read one level below it. -/
theorem argument_needs (h : level.Affords T most) (name : String) : Makes T (argument name level)
    fun o => ∀ e ∈ o, (Node.expr e).argumentRise + e.toll ≤ most + 1 := by
  have one {e : Expr} (fit : (Node.expr e).argumentRise + e.toll ≤ most + 1) :
      ∀ b ∈ some e, (Node.expr b).argumentRise + b.toll ≤ most + 1 :=
    fun b same => Option.some.inj same ▸ fit
  refine .choose (.look _ _) (.ret nofun) (.choose (.eat _) (.ret (one ?_)) (.choose (.eat _) ?_ ?_))
  · have free : (Expr.column .wildcard).toll = 0 := Nat.le_zero.1 <| need_le_of_children <|
      List.forall_mem_singleton.2 (by simp [partRise])
    simp [argumentRise, free]
  · refine (argumentValues_needs h).bind fun content fit => .ret (one ?_)
    have need : (Expr.unary "distinct" content).toll ≤ most := by
      refine need_le_of_children (forall_pair.2 ⟨by simp [partRise], ?_⟩)
      simpa [partRise] using fit
    simp only [argumentRise, if_true]
    omega
  refine .choose (.look _ _) (h.query.bind fun q within => .ret (one ?_)) ?_
  · exact (Nat.zero_add _).trans_le (inlineQuery_need (by omega))
  refine (extractField_related name).makes.pass fun o => ?_
  cases o with
  | none =>
    refine (argumentValues_needs h).bind fun content fit => .ret (one ?_)
    have rise : (Node.expr content).argumentRise ≤ (Node.expr content).listedRise + 1 := by
      cases content <;> simp only [argumentRise, listedRise] <;> first | decide | (split <;> decide)
    omega
  | some field =>
    refine (h.expr 0).bind fun source fit => .ret (one ?_)
    have need : (Expr.binary (.raw field) "from" source).toll ≤ most := by
      refine need_le_of_children (List.forall_mem_cons.2
        ⟨by simp [partRise], forall_pair.2 ⟨by simp [partRise], ?_⟩⟩)
      simpa [partRise, Power.isMembership, Nat.add_comm] using fit
    simp only [argumentRise, if_true]
    omega

theorem functionCall_needs (h : scope.Affords T most) (namespaces : List String) (name : String) :
    Makes T (functionCall scope namespaces name) fun call => (Expr.function call).toll ≤ most := by
  refine (Makes.require _ _).pass fun _ => ?_
  refine Makes.bind (Q := fun o => 1 ≤ most ∧ ∀ e ∈ o, (Node.expr e).argumentRise + e.toll ≤ most)
    (h.enter fun fewer level same affords => ?_) fun argument fit => ?_
  · refine (argument_needs affords name).bind fun o fit => (Makes.require _ _).pass fun _ => ?_
    exact .ret ⟨by omega, fun e mem => same ▸ fit e mem⟩
  refine (Makes.after (Makes.eat _) (windowRef_needs h)).bind fun window within => .ret ?_
  refine need_le_of_children ?_
  simp only [Node.children, Expr.children, FunctionCall.children, List.forall_mem_append,
    List.forall_mem_singleton, forall_each, forall_maybe]
  exact ⟨⟨⟨fun space _ => by simp [partRise], by simpa [partRise] using fit.1⟩,
    fun e mem => by simpa [partRise] using fit.2 e mem⟩,
    fun o mem => by simpa [partRise] using within o mem⟩

theorem column_need (ref : ColumnRef) : (Expr.column ref).toll = 0 := by
  refine Nat.le_zero.1 (need_le_of_children (List.forall_mem_append.2 ⟨forall_each.2 fun _ _ => ?_,
    List.forall_mem_singleton.2 ?_⟩)) <;> simp [partRise]

theorem literal_need (value : Literal) : (Expr.literal value).toll = 0 := need_eq_zero rfl

theorem specifiedString_need (specifier : String) (value : Literal) :
    (Expr.specifiedString specifier value).toll = 0 := by
  have literal := literal_need value
  refine Nat.le_zero.1 (need_le_of_children (forall_pair.2 ⟨by simp [partRise], ?_⟩))
  simp [partRise, literal]

theorem named_needs (h : scope.Affords T most) : Makes T (named scope) fun e => e.toll ≤ most := by
  refine path_related.makes.pass fun names => (Makes.look _ _).pass fun isCall => ?_
  refine .ite (fun _ => Makes.map (functionCall_needs h _ _)) fun _ => ?_
  refine (typedString_related _).makes.pass fun o => ?_
  cases o with
  | none => exact .ret ((column_need _).trans_le (Nat.zero_le _))
  | some text => exact .ret ((specifiedString_need _ _).trans_le (Nat.zero_le _))

end Calls

section Keywords

theorem branch_needs (h : level.Affords T most) :
    Makes T (branch level) fun b => (Node.branch b).toll ≤ most := by
  refine (h.expr 0).bind fun key first => (Makes.require _ _).pass fun _ => ?_
  refine (h.expr 0).bind fun value second => .ret (need_le_of_children ?_)
  exact forall_pair.2 ⟨(Nat.add_comm _ _).trans_le first, (Nat.add_comm _ _).trans_le second⟩

theorem branches_needs (h : level.Affords T most) :
    Makes T (branches level) fun bs => ∀ b ∈ bs, (Node.branch b).toll ≤ most :=
  (Makes.many (Makes.after (Makes.eat _) (branch_needs h))).bind fun _ within =>
    .ite (fun _ => .fail) fun _ => .ret within

theorem caseSubject_needs (h : level.Affords T most) :
    Makes T (caseSubject level) fun o => ∀ e ∈ o, e.toll + 1 ≤ most :=
  .choose (.look _ _) (.ret nofun) <| Makes.map <|
    (h.expr 0).post fun _ fit _ same => Option.some.inj same ▸ fit

theorem caseExpr_needs (h : scope.Affords T most) :
    Makes T (caseExpr scope) fun e => e.toll ≤ most := by
  refine Makes.skip.pass fun _ => h.enter fun fewer level same affords => ?_
  refine (caseSubject_needs affords).bind fun subject first => ?_
  refine (branches_needs affords).bind fun branches within => ?_
  refine (Makes.after (Makes.eat _) (affords.expr 0)).bind fun otherwise last => ?_
  refine (Makes.require _ _).pass fun _ => .ret ?_
  have switch : (Node.switch ⟨branches, otherwise⟩).toll ≤ fewer := by
    refine need_le_of_children (List.forall_mem_append.2 ⟨forall_each.2 fun b mem => ?_,
      forall_maybe.2 fun e mem => ?_⟩)
    · simpa [partRise] using within b mem
    · simpa [partRise, Nat.add_comm] using last e mem
  refine need_le_of_children (List.forall_mem_append.2 ⟨forall_maybe.2 fun e mem => ?_,
    List.forall_mem_singleton.2 ?_⟩)
  · have := first e mem
    change 2 + e.toll ≤ most
    omega
  · change 1 + (Node.switch _).toll ≤ most
    omega

theorem castExpr_needs (h : scope.Affords T most) :
    Makes T (castExpr scope) fun e => e.toll ≤ most := by
  refine Makes.skip.pass fun _ => (Makes.require _ _).pass fun _ => h.enter fun fewer level same affords => ?_
  refine (affords.expr 0).bind fun input fit => (Makes.require _ _).pass fun _ => ?_
  refine (typeRef_needs affords).bind fun ref type => (Makes.require _ _).pass fun _ => .ret ?_
  refine need_le_of_children (forall_pair.2 ⟨?_, ?_⟩)
  · have rise : partRise (.expr (.cast input ref)) ("input", .expr input) ≤ 2 := by
      simp only [partRise]
      split <;> decide
    change partRise _ _ + input.toll ≤ most
    omega
  · have rise : partRise (.expr (.cast input ref)) ("type", .expr (.type ref)) ≤ 1 := by
      simp only [partRise]
      split <;> decide
    change partRise _ _ + (Node.expr (.type ref)).toll ≤ most
    omega

theorem arrayExpr_needs (h : scope.Affords T most) :
    Makes T (arrayExpr scope) fun e => e.toll ≤ most := by
  have array {e : Expr} (fit : 1 - (Node.expr e).listedRise + e.toll ≤ most) :
      (Expr.array e).toll ≤ most := need_le_of_children (List.forall_mem_singleton.2 fit)
  refine Makes.skip.pass fun _ => .choose (.eat _) ?_ ?_
  · refine h.enter fun fewer level same affords => ?_
    refine (valuesBefore_needs affords _).bind fun es fit => (Makes.require _ _).pass fun _ => .ret ?_
    have list : (Expr.list es).toll ≤ fewer := list_need fit
    refine array ?_
    rw [listedRise]
    omega
  refine (Makes.look _ _).pass fun _ => (Makes.look _ _).pass fun _ => .ite (fun _ => ?_) fun _ => .fail
  refine Makes.map ?_
  refine (Makes.require _ _).pass fun _ => Makes.map (h.enter fun fewer level same affords => ?_)
  exact (nestedQuery_needs affords).post fun q within =>
    array ((Nat.zero_add _).trans_le (inlineQuery_need (by omega)))

theorem keywordOperand_needs (h : scope.Affords T most) (word : String) :
    Makes T (keywordOperand scope word) fun e => e.toll ≤ most := by
  have literal {value : Literal} : (Expr.literal value).toll ≤ most :=
    (literal_need value).trans_le (Nat.zero_le _)
  refine .ite (fun _ => Makes.skip.pass fun _ => .ret literal) fun _ => ?_
  refine .ite (fun _ => Makes.skip.pass fun _ => .ret literal) fun _ => ?_
  refine .ite (fun _ => caseExpr_needs h) fun _ => .ite (fun _ => castExpr_needs h) fun _ => ?_
  refine .ite (fun _ => arrayExpr_needs h) fun _ => .ite (fun _ => ?_) fun _ => .fail
  refine Makes.skip.pass fun _ => Makes.map ((parenthesizedQuery_needs h).post fun e fit => ?_)
  refine need_le_of_children (forall_pair.2 ⟨by simp [partRise], ?_⟩)
  simpa [partRise] using fit

end Keywords

theorem primary_needs (h : scope.Affords T most) (t : Token) :
    Makes T (primary scope t) fun e => e.toll ≤ most := by
  unfold primary
  cases t.kind with
  | literal => exact Makes.skip.pass fun _ => .ret ((literal_need _).trans_le (Nat.zero_le _))
  | escapedString =>
    exact Makes.skip.pass fun _ => .ret ((specifiedString_need _ _).trans_le (Nat.zero_le _))
  | parameter => exact Makes.skip.pass fun _ => .ret ((need_eq_zero rfl).trans_le (Nat.zero_le _))
  | openParen => exact parenthesized_needs h
  | identifier => exact named_needs h
  | command => exact keywordOperand_needs h _
  | _ => exact .fail

theorem unary_need {operator : String} {e : Expr} (h : e.toll + 1 ≤ most) :
    (Expr.unary operator e).toll ≤ most := by
  refine need_le_of_children (forall_pair.2 ⟨by simp [partRise], ?_⟩)
  have rise : partRise (.expr (.unary operator e)) ("expression", .expr e) ≤ 1 := by
    simp only [partRise, listedRise]
    split <;> first | decide | (split <;> decide)
  change partRise _ _ + e.toll ≤ most
  omega

theorem operand_needs (h : scope.Affords T most) :
    Makes T (operand scope) fun e => e.toll ≤ most := by
  refine (Makes.peek.post fun _ _ => trivial).pass fun o => ?_
  cases o with
  | none => exact .fail
  | some t =>
    dsimp only
    cases Power.unary? t with
    | none => exact primary_needs h t
    | some power => exact Makes.skip.pass fun _ => Makes.map ((h.here.expr power).post fun _ => unary_need)

/-- The levels are those of the first operand and of what stands to the right of each operator. -/
theorem expression_needs (sound : scope.Sound T) (h : scope.Affords T most) (floor : Nat) :
    Makes T (expression scope floor) fun e => e.toll ≤ most :=
  (((operand_sound sound floor).and (operand_needs h)).pre fun _ _ => ⟨trivial, trivial⟩).bind fun e =>
    (suffixes_needs sound h floor e).bind fun _ => Gets.ret fun _ fit => fit

end Grammar

end SqlQuery
