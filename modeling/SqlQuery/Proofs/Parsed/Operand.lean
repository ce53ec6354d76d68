import SqlQuery.Proofs.Parsed.Suffix

/-!
Operands and what stands inside them: windows, calls, cases, casts and arrays. An expression is an
operand that goes on with every operator which reaches its floor.
-/

namespace SqlQuery.Grammar

open Rule

variable {T : Token → Prop} {level : Level} {scope : Scope}

section Windows

theorem direction_done : Makes T direction fun _ => True :=
  .choose (.eat _) (.ret trivial) ((Makes.eat _).pass fun _ => .ret trivial)

theorem nullsPosition_done : Makes T nullsPosition fun _ => True :=
  .choose (.eat _) (.ret trivial) (.choose (.eat _) (.ret trivial) (.ret trivial))

theorem orderItem_sound (h : level.Sound T) :
    Makes T (orderItem level) fun i => (Node.orderItem i).AllParsed T := by
  refine (h.value 0).bind fun e parsed => direction_done.pass fun _ => nullsPosition_done.pass fun _ => ?_
  exact Makes.ret (.of_children parsed.isValue (by simpa [Node.children] using parsed.all))

theorem orderBy_sound (h : level.Sound T) : Makes T (orderBy level) fun o =>
    o ≠ some [] ∧ ∀ items ∈ o, (Node.orderBy items).AllParsed T := by
  refine (Makes.after (Makes.eat _) (orderItem_sound h).commaList).post fun o parsed => ⟨?_, ?_⟩
  · rintro rfl
    exact (parsed [] rfl).1 rfl
  · exact fun items mem => .of_children trivial (Child.forall_each.2 (parsed items mem).2)

theorem partitionBy_allParsed {es : List Expr} (h : ∀ e ∈ es, e.IsParsed T) :
    (Node.partitionBy es).AllParsed T :=
  .of_children trivial (each_parsed h)

/-- The offset of a bound, if it has one. -/
theorem bound_sound (h : level.Sound T) :
    Makes T (bound level) fun b => ∀ e ∈ b.offset?, e.IsParsed T := by
  refine .choose (.eat _) (.choose (.eat _) (.ret nofun) ?_) (.choose (.eat _) ?_ ?_)
  · exact (Makes.require _ _).pass fun _ => .ret nofun
  · exact (Makes.require _ _).pass fun _ => .ret nofun
  refine (h.value 0).bind fun e parsed => .choose (.eat _) ?_ ?_
  · exact .ret fun b same => Option.some.inj same ▸ parsed
  · exact (Makes.require _ _).pass fun _ => .ret fun b same => Option.some.inj same ▸ parsed

theorem frame_allParsed {f : Frame} (start : ∀ e ∈ f.start.offset?, e.IsParsed T)
    (stop : ∀ b ∈ f.stop, ∀ e ∈ b.offset?, e.IsParsed T) : (Node.frame f).AllParsed T := by
  refine .of_children ⟨fun e mem => (start e mem).isValue, fun b mem e mem' =>
    (stop b mem e mem').isValue⟩ ?_
  simp only [Node.children, List.forall_mem_append, Child.forall_maybe]
  refine ⟨fun e mem => (start e mem).all, fun e mem => ?_⟩
  obtain ⟨b, mem, mem'⟩ := Option.bind_eq_some_iff.1 mem
  exact (stop b mem e mem').all

theorem frame_sound (h : level.Sound T) :
    Makes T (frame level) fun o => ∀ f ∈ o, (Node.frame f).AllParsed T := by
  refine (Makes.accept.post fun _ _ => trivial).pass fun o => ?_
  cases o with
  | none => exact .ret nofun
  | some unit =>
    refine .choose (.eat _) ?_ ?_
    · refine (bound_sound h).bind fun start first => (Makes.require _ _).pass fun _ => ?_
      refine (bound_sound h).bind fun stop second => .ret fun f same => Option.some.inj same ▸ ?_
      exact frame_allParsed first fun b same => Option.some.inj same ▸ second
    · refine (bound_sound h).bind fun start first => .ret fun f same => Option.some.inj same ▸ ?_
      exact frame_allParsed first nofun

theorem windowSpec_sound (h : level.Sound T) :
    Makes T (windowSpec level) fun w => (Node.windowSpec w).AllParsed T := by
  refine (Makes.after (Makes.eat _) (values_sound h)).bind fun partition parts => ?_
  refine (orderBy_sound h).bind fun order ordered => (frame_sound h).bind fun frame framed => ?_
  refine .ret (.of_children ⟨fun es mem => areValues (parts es mem), ordered.1⟩ ?_)
  simp only [Node.children, List.forall_mem_append, Child.forall_maybe]
  exact ⟨⟨fun es mem => partitionBy_allParsed (parts es mem).2, ordered.2⟩, framed⟩

theorem windowRef_sound (h : scope.Sound T) :
    Makes T (windowRef scope) fun o => (Node.overClause o).AllParsed T := by
  refine .choose (.look _ _) ?_ ?_
  · refine Makes.map (Makes.name.post fun name named => .of_children named ?_)
    simp [Node.children, Over.children]
  · refine (Makes.require _ _).pass fun _ => Makes.map ?_
    refine (h.enter (Q := fun w => (Node.windowSpec w).AllParsed T) fun level sound => ?_).post
      fun w parsed => .of_children trivial (by simpa [Node.children, Over.children] using parsed)
    exact (windowSpec_sound sound).bind fun w parsed => (Makes.require _ _).pass fun _ => .ret parsed

end Windows

section Calls

theorem extractField_sound (name : String) : Makes T (extractField name) fun o =>
    ∀ field ∈ o, Text.lower name = "extract" ∧ IsLower field := by
  refine (Makes.look _ _).pass fun follows => .ite (fun call => ?_) fun _ => .ret nofun
  simp only [Bool.and_eq_true, beq_iff_eq] at call
  refine Makes.bind (Q := fun o => ∀ field ∈ o, IsLower field) ?_ fun o lower => ?_
  · refine Makes.accept.post fun o found field mem => ?_
    obtain ⟨t, _, accepted⟩ := found field mem
    split at accepted
    · exact Option.some.inj accepted ▸ isLower_lower t.text
    · cases accepted
  have each : ∀ field ∈ o, Text.lower name = "extract" ∧ IsLower field :=
    fun field mem => ⟨call.1, lower field mem⟩
  exact .ite (fun _ => Makes.skip.pass fun _ => .ret each) fun _ => .ret each

theorem argument_sound (h : level.Sound T) (name : String) : Makes T (argument name level) fun o =>
    ∀ e ∈ o, e.Argues name ∧ (Node.expr e).AllParsed T := by
  have one {e : Expr} (argues : e.Argues name) (all : (Node.expr e).AllParsed T) :
      ∀ b ∈ some e, b.Argues name ∧ (Node.expr b).AllParsed T :=
    fun b same => Option.some.inj same ▸ ⟨argues, all⟩
  refine .choose (.look _ _) (.ret nofun) (.choose (.eat _) (.ret (one .wildcard ?_)) ?_)
  · exact .of_children (by simp [Node.Parsed, Expr.Parsed, ColumnRef.wildcard])
      (by simp [Node.children, Expr.children, ColumnRef.wildcard, Child.each])
  refine .choose (.eat _) ?_ (.choose (.look _ _) ?_ ?_)
  · refine (argumentValues_sound h).bind fun content parsed => .ret (one (.distinct parsed.1) ?_)
    exact .of_children (.inl rfl) (by simpa [Node.children, Expr.children] using parsed.2)
  · exact h.query.bind fun q parsed => .ret (one (.query q) (inlineQuery_closed parsed).all)
  refine (extractField_sound name).bind fun o fields => ?_
  cases o with
  | none =>
    exact (argumentValues_sound h).bind fun content parsed => .ret (one (.listing parsed.1) parsed.2)
  | some field =>
    obtain ⟨call, lower⟩ := fields field rfl
    refine (h.value 0).bind fun value parsed => .ret (one (.extract call lower parsed.isValue) ?_)
    exact .of_children (.inl ⟨rfl, field, rfl⟩)
      (by simpa [Node.children, Expr.children] using parsed.all)

theorem functionCall_sound (h : scope.Sound T) {namespaces : List String} {name : String}
    (spaces : ∀ space ∈ namespaces, IsName space) (named : IsName name) :
    Makes T (functionCall scope namespaces name) fun call =>
      (Node.expr (.function call)).AllParsed T := by
  refine (Makes.require _ _).pass fun _ => ?_
  refine (h.enter fun level sound => (argument_sound sound name).bind fun argument parsed =>
    (Makes.require _ _).pass fun _ => .ret parsed).bind fun argument parsed => ?_
  refine (Makes.after (Makes.eat _) (windowRef_sound h)).bind fun window overClause => ?_
  refine .ret (.of_children ⟨named, spaces, fun e mem => (parsed e mem).1⟩ ?_)
  simp only [Node.children, Expr.children, FunctionCall.children, List.forall_mem_append,
    List.forall_mem_singleton, Child.forall_each, Child.forall_maybe, Node.allParsed_identifier,
    Node.allParsed_raw, implies_true, true_and]
  exact ⟨fun e mem => (parsed e mem).2, overClause⟩

/-- All names of a path but the last one may name things of their own. -/
theorem path_sound : Makes T path fun names => ∀ name ∈ names.dropLast, IsName name := by
  have general (bound : List Token) : Makes T (pathUpTo bound) fun names =>
      ∀ name ∈ names.dropLast, IsName name := by
    induction bound with
    | nil => exact .fail
    | cons t bound ih =>
      refine (Makes.expect.post fun _ _ => trivial).pass fun name => ?_
      refine .ite (fun _ => .ret nofun) fun other => .choose (.eat _) ?_ (.ret nofun)
      refine ih.bind fun names each => .ret ?_
      cases names with
      | nil => exact nofun
      | cons first names =>
        rw [List.dropLast_cons_cons]
        exact List.forall_mem_cons.2 ⟨by simpa [IsName] using other, each⟩
  exact fun ts => general ts ts

theorem column_allParsed {ref : ColumnRef} (h : ∀ name ∈ ref.namespaces, IsName name) :
    (Node.expr (.column ref)).AllParsed T := by
  refine .of_children h ?_
  simp only [Node.children, Expr.children, List.forall_mem_append, List.forall_mem_singleton,
    Child.forall_each, Node.allParsed_identifier, implies_true, and_self]

theorem specified_closed {specifier : String} {value : Literal} (h : SpecifiedParsed T specifier value)
    (literal : value.Parsed T) : (Expr.specifiedString specifier value).IsClosed T := by
  have leaf : (Node.expr (.literal value)).AllParsed T := Node.allParsed_leaf literal rfl
  refine .of_primary ⟨rfl, .of_children h ?_⟩ rfl
  simpa [Node.children, Expr.children] using leaf

theorem typedString_sound (allowed : Bool) : Makes T (typedString allowed) fun o =>
    ∀ text ∈ o, ∃ t, T t ∧ t.kind = .literal ∧ isQuoted t.text = true ∧ t.text = text := by
  refine .ite (fun _ => Makes.accept.post fun o found text mem => ?_) fun _ => .ret nofun
  obtain ⟨t, known, accepted⟩ := found text mem
  split at accepted
  · rename_i quoted
    simp only [isKind, Bool.and_eq_true, beq_iff_eq] at quoted
    exact ⟨t, known, quoted.1, quoted.2, Option.some.inj accepted⟩
  · cases accepted

theorem named_sound (h : scope.Sound T) : Makes T (named scope) (Expr.IsClosed T) := by
  refine path_sound.bind fun names spaces => (Makes.look _ _).pass fun isCall => ?_
  refine .ite (fun call => ?_) fun _ => (typedString_sound _).bind fun o found => ?_
  · simp only [Bool.and_eq_true, Bool.not_eq_true', beq_eq_false_iff_ne] at call
    refine Makes.map ((functionCall_sound h spaces call.1).post fun call all => ?_)
    exact .of_primary ⟨rfl, all⟩ rfl
  cases o with
  | none => exact .ret (.of_primary ⟨rfl, column_allParsed spaces⟩ rfl)
  | some text =>
    obtain ⟨t, known, kind, quoted, rfl⟩ := found text rfl
    exact .ret (specified_closed (.typed (isLower_lower _) known kind quoted) (.token known kind))

end Calls

section Keywords

theorem branch_sound (h : level.Sound T) :
    Makes T (branch level) fun b => (Node.branch b).AllParsed T := by
  refine (h.value 0).bind fun key first => (Makes.require _ _).pass fun _ => ?_
  refine (h.value 0).bind fun value second => .ret ?_
  refine .of_children ⟨first.isValue, second.isValue⟩ ?_
  simpa [Node.children] using ⟨first.all, second.all⟩

theorem branches_sound (h : level.Sound T) : Makes T (branches level) fun bs =>
    bs ≠ [] ∧ ∀ b ∈ bs, (Node.branch b).AllParsed T := by
  refine (Makes.many (Makes.after (Makes.eat _) (branch_sound h))).bind fun bs parsed => ?_
  refine .ite (fun _ => .fail) fun some => .ret ⟨?_, parsed⟩
  simpa using some

theorem caseSubject_sound (h : level.Sound T) :
    Makes T (caseSubject level) fun o => ∀ e ∈ o, e.IsParsed T :=
  .choose (.look _ _) (.ret nofun) <| Makes.map <|
    (h.value 0).post fun _ parsed _ same => Option.some.inj same ▸ parsed

theorem caseExpr_sound (h : scope.Sound T) : Makes T (caseExpr scope) (Expr.IsClosed T) := by
  refine Makes.skip.pass fun _ => h.enter fun level sound => ?_
  refine (caseSubject_sound sound).bind fun subject first => ?_
  refine (branches_sound sound).bind fun branches parsed => ?_
  refine (Makes.after (Makes.eat _) (sound.value 0)).bind fun otherwise last => ?_
  refine (Makes.require _ _).pass fun _ => .ret (.of_primary ⟨rfl, ?_⟩ rfl)
  have switch : (Node.switch ⟨branches, otherwise⟩).AllParsed T := by
    refine .of_children trivial ?_
    simp only [Node.children, List.forall_mem_append, Child.forall_each, Child.forall_maybe]
    exact ⟨parsed.2, fun e mem => (last e mem).all⟩
  refine .of_children ⟨fun e mem => (first e mem).isValue, parsed.1,
    fun e mem => (last e mem).isValue⟩ ?_
  simp only [Node.children, Expr.children, List.forall_mem_append, List.forall_mem_singleton,
    Child.forall_maybe]
  exact ⟨fun e mem => (first e mem).all, switch⟩

theorem castExpr_sound (h : scope.Sound T) : Makes T (castExpr scope) (Expr.IsClosed T) := by
  refine Makes.skip.pass fun _ => (Makes.require _ _).pass fun _ => h.enter fun level sound => ?_
  refine (sound.value 0).bind fun input parsed => (Makes.require _ _).pass fun _ => ?_
  refine (typeRef_sound sound).bind fun ref type => (Makes.require _ _).pass fun _ => .ret ?_
  refine .of_primary ⟨rfl, .of_children parsed.isValue ?_⟩ rfl
  simpa [Node.children, Expr.children] using ⟨parsed.all, type⟩

theorem arrayExpr_sound (h : scope.Sound T) : Makes T (arrayExpr scope) (Expr.IsClosed T) := by
  refine Makes.skip.pass fun _ => .choose (.eat _) ?_ ?_
  · refine h.enter fun level sound => (valuesBefore_sound sound _).bind fun es parsed => ?_
    refine (Makes.require _ _).pass fun _ => .ret (.of_primary ⟨rfl, ?_⟩ rfl)
    exact .of_children (.inr ⟨es, rfl, fun e mem => (parsed e mem).isValue⟩)
      (by simpa [Node.children, Expr.children] using list_allParsed parsed)
  refine (Makes.look _ _).pass fun _ => (Makes.look _ _).pass fun _ => .ite (fun _ => ?_) fun _ => .fail
  refine Makes.map ((parenthesizedQuery_sound h).post fun e closed => ?_)
  exact .of_primary ⟨rfl, .of_children (.inl closed.2)
    (by simpa [Node.children, Expr.children] using closed.1.all)⟩ rfl

theorem keyword_closed {value : Literal} (h : value.Parsed T) : (Expr.literal value).IsClosed T :=
  .of_primary ⟨rfl, Node.allParsed_leaf h rfl⟩ rfl

theorem exists_closed {e : Expr} (h : e.IsClosed T) (query : ∃ q, e = .inlineQuery q) :
    (Expr.unary "exists" e).IsClosed T where
  isValue := rfl
  all := .of_children (.inr ⟨rfl, query⟩) (by simpa [Node.children, Expr.children] using h.all)
  binds := fun _ => trivial
  spine := Nat.le_succ 19
  edge := rfl

theorem keywordOperand_sound (h : scope.Sound T) (word : String) :
    Makes T (keywordOperand scope word) (Expr.IsClosed T) := by
  refine .ite (fun _ => Makes.skip.pass fun _ => .ret (keyword_closed .null)) fun _ => ?_
  refine .ite (fun _ => Makes.skip.pass fun _ => .ret (keyword_closed (.boolean _))) fun _ => ?_
  refine .ite (fun _ => caseExpr_sound h) fun _ => .ite (fun _ => castExpr_sound h) fun _ => ?_
  refine .ite (fun _ => arrayExpr_sound h) fun _ => .ite (fun _ => ?_) fun _ => .fail
  refine Makes.skip.pass fun _ => Makes.map ?_
  exact (parenthesizedQuery_sound h).post fun e closed => exists_closed closed.1 closed.2

end Keywords

theorem primary_sound (h : scope.Sound T) {t : Token} (known : T t) :
    Makes T (primary scope t) (Expr.IsClosed T) := by
  unfold primary
  split
  · rename_i kind
    exact Makes.skip.pass fun _ => .ret (keyword_closed (.token known kind))
  · rename_i kind
    exact Makes.skip.pass fun _ =>
      .ret (specified_closed (.token known kind rfl) (.specified known kind rfl))
  · rename_i kind
    exact Makes.skip.pass fun _ =>
      .ret (.of_primary ⟨rfl, Node.allParsed_leaf ⟨t, known, kind, rfl⟩ rfl⟩ rfl)
  · exact parenthesized_sound h
  · exact named_sound h
  · exact keywordOperand_sound h _
  · exact .fail

theorem prefix?_of_unary? {t : Token} {power : Nat} (h : Power.unary? t = some power) :
    Power.prefix? t.text = some power := by
  unfold Power.unary? at h
  unfold Power.prefix?
  split at h
  · rename_i sign
    simp only [Bool.and_eq_true] at sign
    rw [if_pos sign.2, h]
  split at h
  · rename_i word
    simp only [Token.isCommand, Bool.and_eq_true, beq_iff_eq] at word
    rw [word.2, ← h]
    rfl
  · cases h

/-- What stands after an operator in front of a value has no operator that binds less tightly, and
what follows it could not be taken in. -/
theorem prefixed_grown {operator : String} {e : Expr} {power floor : Nat} {rest : List Token}
    (found : Power.prefix? operator = some power) (read : e.ReadFrom T power rest) :
    (Expr.unary operator e).Grown T floor rest := by
  have tight : ∀ entry ∈ Power.prefixes, entry.2 ≤ Power.cast ∧ entry.1 ≠ "distinct" := by decide
  obtain ⟨tight, other⟩ := tight _ (Power.prefix?_mem found)
  have spine := read.spine
  rw [Nat.min_eq_left tight] at spine
  have side : e.IsOperand operator := by
    rw [Expr.IsOperand, found]
    exact ⟨read.isValue, spine⟩
  refine ⟨⟨by simpa [Expr.isValue] using other, .of_children (.inr side) ?_⟩, trivial, ?_, ?_⟩
  · simpa [Node.children, Expr.children] using read.all
  · exact Nat.le_trans (Nat.min_le_right ..) (Nat.le_succ 19)
  · intro t head next binary
    rw [Expr.edge, found]
    exact Nat.lt_min.2 ⟨read.ended t head next binary, read.stops t head next binary⟩

theorem operand_sound (h : scope.Sound T) (floor : Nat) :
    Gets T (fun _ => True) (operand scope) (Expr.Grown T floor) := by
  refine Gets.bind Makes.peek fun o => ?_
  cases o with
  | none => exact Gets.fail
  | some t =>
    refine Gets.given fun known => ?_
    dsimp only
    split
    · rename_i power unary
      refine Gets.bind Makes.skip fun _ => Gets.map ?_
      exact (h.here.expr power).post fun e rest => prefixed_grown (prefix?_of_unary? unary)
    · exact Gets.post (primary_sound h (known t rfl)) fun e rest closed =>
        closed_grown closed floor rest

theorem expression_sound (h : scope.Sound T) (floor : Nat) :
    Gets T (fun _ => True) (expression scope floor) (Expr.ReadFrom T floor) :=
  (operand_sound h floor).bind fun first => (suffixes_sound h floor first).bind fun _ =>
    Gets.ret fun _ read => read

end SqlQuery.Grammar
