import SqlQuery.Proofs.Parsed.Clause

/-!
Whatever the tokens are, the grammar keeps its promises at every level: by induction on the levels that
are allowed, as each rule calls the ones inside it at a level below.
-/

namespace SqlQuery.Grammar

open Rule

variable {T : Token → Prop} {level : Level} {scope : Scope}

theorem row_sound (h : level.Sound T) :
    Makes T (row level) fun es => es ≠ [] ∧ ∀ e ∈ es, e.IsParsed T :=
  (Makes.require _ _).pass fun _ => (values_sound h).bind fun _ parsed =>
    (Makes.require _ _).pass fun _ => .ret parsed

theorem filter_allParsed {e : Expr} (h : e.IsParsed T) : (Node.filter e).AllParsed T :=
  .of_children trivial (by simpa [Node.children] using h.all)

theorem having_allParsed {e : Expr} (h : e.IsParsed T) : (Node.having e).AllParsed T :=
  .of_children trivial (by simpa [Node.children] using h.all)

theorem groupBy_allParsed {es : List Expr} (h : ∀ e ∈ es, e.IsParsed T) :
    (Node.groupBy es).AllParsed T :=
  .of_children trivial (each_parsed h)

theorem simpleSelect_sound (h : scope.Sound T) {o : Option With}
    (common : ∀ w ∈ o, (Node.commonTables w).AllParsed T) :
    Makes T (simpleSelect scope o) fun s =>
      s.commonTables = o ∧ (Node.query (.simple s)).AllParsed T := by
  refine (selectClause_sound h.here).bind fun clause chosen => ?_
  refine (Makes.after (Makes.eat _) (fromClause_sound h)).bind fun source read => ?_
  refine (Makes.after (Makes.eat _) (h.here.value 0)).bind fun condition kept => ?_
  refine (Makes.after (Makes.eat _) (values_sound h.here)).bind fun groupBy grouped => ?_
  refine (Makes.after (Makes.eat _) (h.here.value 0)).bind fun having held => ?_
  refine (Makes.after (Makes.eat _) (windowDef_sound h).commaList).bind fun windows defined => ?_
  refine (orderBy_sound h.here).bind fun orderBy ordered => ?_
  refine (limit_sound h.here).bind fun limit limited => ?_
  refine (Makes.after (Makes.eat _) (fetch_sound h.here)).bind fun fetch fetched => ?_
  refine (Makes.after (Makes.eat _) lock_done).bind fun lock _ => .ret ⟨rfl, .of_children ?_ ?_⟩
  · refine ⟨fun e mem => (kept e mem).isValue, fun es mem => areValues (grouped es mem),
      fun e mem => (held e mem).isValue, ?_, ordered.1⟩
    rintro rfl
    exact (defined [] rfl).1 rfl
  simp only [Node.children, Query.children, Select.children, List.forall_mem_append,
    List.forall_mem_singleton, Child.forall_maybe]
  exact ⟨⟨⟨⟨⟨⟨⟨⟨⟨⟨common, chosen⟩, read⟩, fun e mem => filter_allParsed (kept e mem)⟩,
    fun es mem => groupBy_allParsed (grouped es mem).2⟩, fun e mem => having_allParsed (held e mem)⟩,
    fun ws mem => .of_children trivial (Child.forall_each.2 (defined ws mem).2)⟩, ordered.2⟩,
    limited⟩, fetched⟩, fun mode _ => Node.allParsed_leaf trivial rfl⟩

/-- A term of a set operation is no set operation, and common tables come only before it. -/
theorem term_sound (h : scope.Sound T) {o : Option With}
    (common : ∀ w ∈ o, (Node.commonTables w).AllParsed T) : Makes T (term scope o) fun q =>
      (o = none → q.IsTerm) ∧ (Node.query q).AllParsed T := by
  refine .choose (.eat _) (Makes.map ?_) (Makes.map ?_)
  · refine (row_sound h.here).commaList.post fun rows parsed => ⟨fun _ => trivial, ?_⟩
    refine .of_children ⟨parsed.1, fun row mem => areValues (parsed.2 row mem)⟩ ?_
    refine Child.forall_each.2 fun row mem => ?_
    exact .of_children (fun e mem' => ((parsed.2 row mem).2 e mem').isValue)
      (each_parsed (parsed.2 row mem).2)
  · refine (simpleSelect_sound h common).post fun s parsed => ⟨fun none => ?_, parsed.2⟩
    rw [Query.IsTerm, parsed.1, none]
    rfl

theorem materialized_done : Makes T materialized fun _ => True :=
  .choose (.eat _) (.ret trivial) (.choose (.eat _) (.ret trivial) (.ret trivial))

theorem commonTable_sound (h : scope.Sound T) :
    Makes T (commonTable scope) fun t => (Node.commonTable t).AllParsed T := by
  refine Makes.name.bind fun name named => Makes.columnNames.bind fun columns each => ?_
  refine (Makes.require _ _).pass fun _ => materialized_done.pass fun materialized => ?_
  refine (Makes.require _ _).pass fun _ => (nested_sound h).bind fun q parsed => ?_
  exact .ret (.of_children trivial (Child.forall_pair.2 ⟨sourceAlias_allParsed ⟨named, each⟩, parsed⟩))

theorem commonTables_sound (h : scope.Sound T) :
    Makes T (commonTables scope) fun o => ∀ w ∈ o, (Node.commonTables w).AllParsed T := by
  refine Makes.after (Makes.eat _) ((Makes.eat _).pass fun recursive => ?_)
  refine (commonTable_sound h).commaList.bind fun tables parsed => ?_
  refine .choose (.look _ _) (.ret ?_) .fail
  exact .of_children parsed.1 (Child.forall_each.2 parsed.2)

theorem setOperation_sound (h : scope.Sound T) : Makes T (setOperation scope) fun o =>
    ∀ s ∈ o, s.1 ∈ setOperators ∧ s.2.IsTerm ∧ (Node.query s.2).AllParsed T := by
  refine Makes.bind (Q := fun o => ∀ operator ∈ o, operator ∈ setOperators) ?_ fun o known => ?_
  · refine Makes.accept.post fun o found operator mem => ?_
    obtain ⟨t, _, accepted⟩ := found operator mem
    split at accepted
    · rename_i isOperator
      simp only [Bool.and_eq_true, List.contains_eq_mem, decide_eq_true_eq] at isOperator
      exact Option.some.inj accepted ▸ isOperator.2
    · cases accepted
  cases o with
  | none => exact .ret nofun
  | some operator =>
    refine (term_sound h fun w none => by cases none).bind fun q parsed => .ret fun s same => ?_
    cases same
    exact ⟨known operator rfl, parsed.1 rfl, parsed.2⟩

theorem binaryQuery_allParsed {left right : Query} {operator : String}
    (first : (Node.query left).AllParsed T) (known : operator ∈ setOperators) (term : right.IsTerm)
    (second : (Node.query right).AllParsed T) : (Node.query (.binary left operator right)).AllParsed T :=
  .of_children ⟨known, term⟩ (by simpa [Node.children, Query.children] using ⟨first, second⟩)

/-- Operations group to the left, so every right side is a single term. -/
theorem query_sound (h : scope.Sound T) :
    Makes T (query scope) fun q => (Node.query q).AllParsed T := by
  refine (commonTables_sound h).bind fun tables common => ?_
  refine (term_sound h common).bind fun first parsed => ?_
  refine (setOperation_sound h).many.bind fun operations each => .ret ?_
  have left := parsed.2
  clear parsed
  induction operations generalizing first with
  | nil => exact left
  | cons s operations ih =>
    obtain ⟨⟨known, term, right⟩, later⟩ := List.forall_mem_cons.1 each
    exact ih _ later (binaryQuery_allParsed left known term right)

/-- What is nested runs at a level below, and so the induction is on the levels. -/
theorem levelAt_sound (T : Token → Prop) (n : Nat) :
    (levelAt n).Sound T ∧ (scopeAt n).Sound T := by
  refine levelAt_invariant (fun _ => Scope.Sound.mk) ⟨?_, ?_⟩ (fun s scope => ?_) n
  · exact fun _ _ _ _ _ _ run => by cases run
  · exact fun _ _ _ _ _ run => by cases run
  · exact ⟨expression_sound scope, query_sound scope⟩

end SqlQuery.Grammar
