import SqlQuery.Grammar.Query
import SqlQuery.Proofs.Nesting.Operand
import SqlQuery.Proofs.Parsed.Query
import SqlQuery.Proofs.Relation.Query

/-!
A statement needs no more levels than it may open: the rules for clauses and queries, and the levels
that they run at.
-/

namespace SqlQuery.Grammar

open Rule Node Child

variable {T : Token → Prop} {most : Nat} {level : Level} {scope : Scope}

section Clauses

theorem distinct_needs (h : level.Affords T most) :
    Makes T (distinct level) fun o => ∀ d ∈ o, (Node.distinct d).toll ≤ most := by
  refine .choose (.eat _) ?_ (.choose (.eat _) ?_ ((Makes.eat _).pass fun _ => .ret nofun))
  · refine (Makes.require _ _).pass fun _ => (values_needs h).bind fun es fit => ?_
    refine (Makes.require _ _).pass fun _ => .ret fun d same => Option.some.inj same ▸ ?_
    refine need_le_of_children (List.forall_mem_singleton.2 ?_)
    exact (Nat.zero_add _).trans_le (list_need fit)
  · exact .ret fun d same => Option.some.inj same ▸ (need_eq_zero rfl).trans_le (Nat.zero_le _)

theorem selectItem_needs (h : level.Affords T most) :
    Makes T (selectItem level) fun i => (Node.selectItem i).toll ≤ most := by
  refine (h.expr 0).bind fun e fit => (Makes.eat _).pass fun _ => (Makes.look _ _).pass fun _ => ?_
  have item (aliasName : Option String) : (Node.selectItem ⟨e, aliasName⟩).toll ≤ most :=
    need_le_of_children (List.forall_mem_cons.2 ⟨(Nat.add_comm _ _).trans_le fit,
      forall_maybe.2 fun name _ => by simp [partRise]⟩)
  exact .ite (fun _ => Makes.name.bind fun name _ => .ret (item _)) fun _ => .ret (item _)

theorem selectClause_needs (h : level.Affords T most) :
    Makes T (selectClause level) fun c => (Node.select c).toll ≤ most := by
  refine (Makes.require _ _).pass fun _ => (distinct_needs h).bind fun distinct first => ?_
  refine (selectItem_needs h).commaList.bind fun items each => .ret (need_le_of_children ?_)
  simp only [Node.children, List.forall_mem_append, forall_each, forall_maybe, partRise, Nat.zero_add]
  exact ⟨first, each.2⟩

theorem sourceAlias_need (a : SourceAlias) : (Node.sourceAlias a).toll = 0 := by
  refine Nat.le_zero.1 (need_le_of_children ?_)
  simp only [Node.children, List.forall_mem_cons, forall_each, partRise, toll_identifier, Nat.le_refl,
    Nat.add_zero, implies_true, and_self]

theorem nested_needs (h : scope.Affords T most) :
    Makes T (scope.enter nestedQuery) fun q => q.need + 2 ≤ most :=
  h.enter fun fewer _ same affords => (nestedQuery_needs affords).post fun q fit => by omega

/-- A query in parentheses is a source that takes two levels. -/
theorem dataSource_needs (h : scope.Affords T most) : Makes T (dataSource scope) fun d =>
    ∀ s, (Node.source s).partRise ("datasource", d.node) + d.node.toll ≤ most := by
  refine .choose (.eat _) (Makes.map ((nested_needs h).post fun q fit s => ?_)) ?_
  · change 2 + q.need ≤ most
    omega
  refine qualifiedName_related.makes.pass fun names => .choose (.look _ _) ?_ (.ret fun s => ?_)
  · exact Makes.map ((functionCall_needs h _ _).post fun call fit s => (Nat.zero_add _).trans_le fit)
  · refine (Nat.zero_add _).trans_le (need_le_of_children ?_)
    simp only [DataSource.node, Node.children, List.forall_mem_append, forall_each,
      List.forall_mem_singleton, partRise, toll_identifier, Nat.add_zero, Nat.zero_le, implies_true,
      and_self]

theorem source_needs (h : scope.Affords T most) :
    Makes T (source scope) fun s => (Node.source s).toll ≤ most := by
  refine (dataSource_needs h).bind fun data fit => (sourceAlias_related _).makes.pass fun o => ?_
  refine .ret (need_le_of_children (List.forall_mem_cons.2 ⟨fit _, forall_maybe.2 fun a _ => ?_⟩))
  simp [partRise, sourceAlias_need]

theorem joinCondition_needs (h : level.Affords T most) : Makes T (joinCondition level) fun o =>
    ∀ c ∈ o, ∀ child ∈ c.children, ∀ j, (Node.join j).partRise child + child.2.toll ≤ most := by
  refine .choose (.eat _) ?_ (.choose (.eat _) ?_ (.ret nofun))
  · refine (h.expr 0).bind fun e fit => .ret fun c same => Option.some.inj same ▸ ?_
    exact List.forall_mem_singleton.2 fun j => (Nat.add_comm _ _).trans_le fit
  · refine (Makes.nameList.post fun _ _ => trivial).pass fun names => .ret fun c same => ?_
    obtain rfl := Option.some.inj same
    exact forall_each.2 fun name _ j => by simp [partRise]

theorem join_need {j : Join} (source : (Node.source j.source).toll ≤ most)
    (condition : ∀ c ∈ j.condition, ∀ child ∈ c.children, ∀ j,
      (Node.join j).partRise child + child.2.toll ≤ most) : (Node.join j).toll ≤ most := by
  refine need_le_of_children (List.forall_mem_append.2 ⟨forall_pair.2 ⟨?_, ?_⟩, ?_⟩)
  · simp [partRise]
  · simpa [partRise] using source
  · exact List.forall_mem_flatMap.2 fun c mem child inside =>
      condition c (Option.mem_toList.1 mem) child inside j

theorem join_needs (h : scope.Affords T most) :
    Makes T (join scope) fun o => ∀ j ∈ o, (Node.join j).toll ≤ most := by
  refine (Makes.accept.post fun _ _ => trivial).pass fun o => ?_
  cases o with
  | none => exact .ret nofun
  | some found =>
    refine (Makes.eat _).pass fun lateral => (source_needs h).bind fun source within => ?_
    refine .ite (fun _ => .ret fun j same => Option.some.inj same ▸ ?_) fun _ => ?_
    · exact join_need within nofun
    · refine (joinCondition_needs h.here).bind fun condition fit => .ret fun j same => ?_
      exact Option.some.inj same ▸ join_need within fit

theorem fromClause_needs (h : scope.Affords T most) :
    Makes T (fromClause scope) fun f => (Node.fromClause f).toll ≤ most := by
  refine (source_needs h).bind fun source within => (join_needs h).many.bind fun joins each => ?_
  refine .ret (need_le_of_children ?_)
  simp only [Node.children, List.forall_mem_cons, forall_each, partRise, Nat.zero_add]
  exact ⟨within, each⟩

theorem windowDef_needs (h : scope.Affords T most) :
    Makes T (windowDef scope) fun w => (Node.windowDef w).toll ≤ most := by
  refine Makes.name.bind fun name _ => (Makes.require _ _).pass fun _ => ?_
  refine (Makes.require _ _).pass fun _ => h.enter fun fewer level same affords => ?_
  refine Makes.bind (Q := fun w => (Node.windowSpec w).toll ≤ fewer) ?_ fun w within => ?_
  · exact (windowSpec_needs affords).bind fun w within => .ite (fun _ => .ret within) fun _ => .fail
  refine (Makes.require _ _).pass fun _ => .ret (need_le_of_children (forall_pair.2 ⟨?_, ?_⟩))
  · simp [partRise]
  · change 1 + (Node.windowSpec w).toll ≤ most
    omega

theorem offset_needs (h : level.Affords T most) :
    Makes T (offset level) fun o => ∀ e ∈ o, e.toll + 1 ≤ most :=
  Makes.after (Makes.eat _) <| (h.expr 0).bind fun _ fit => eatRows_related.makes.pass fun _ => .ret fit

theorem limit_need {l : Limit} (limit : ∀ e ∈ l.limit, e.toll + 1 ≤ most)
    (offset : ∀ e ∈ l.offset, e.toll + 1 ≤ most) : (Node.limit l).toll ≤ most :=
  need_le_of_children (List.forall_mem_append.2
    ⟨forall_maybe.2 fun e mem => (Nat.add_comm _ _).trans_le (limit e mem),
      forall_maybe.2 fun e mem => (Nat.add_comm _ _).trans_le (offset e mem)⟩)

theorem limit_needs (h : level.Affords T most) :
    Makes T (limit level) fun o => ∀ l ∈ o, (Node.limit l).toll ≤ most := by
  have one {e : Expr} (fit : e.toll + 1 ≤ most) : ∀ b ∈ some e, b.toll + 1 ≤ most :=
    fun b same => Option.some.inj same ▸ fit
  refine .choose (.eat _) ?_ ((offset_needs h).bind fun o skipped => ?_)
  · refine (h.expr 0).bind fun e first => (offset_needs h).bind fun o second => ?_
    exact .ret fun l same => Option.some.inj same ▸ limit_need (one first) second
  cases o with
  | none => exact .ret nofun
  | some value =>
    refine (Makes.after (Makes.eat _) (h.expr 0)).bind fun o first => ?_
    exact .ret fun l same => Option.some.inj same ▸ limit_need first skipped

theorem fetch_needs (h : level.Affords T most) :
    Makes T (fetch level) fun f => (Node.fetch f).toll ≤ most := by
  refine (Makes.expect.post fun _ _ => trivial).pass fun position => ?_
  refine Makes.bind (Q := fun o => ∀ e ∈ o, e.toll + 1 ≤ most) ?_ fun count fit => ?_
  · exact .choose (.look _ _) (.ret nofun) <| Makes.map <|
      (h.expr 0).post fun _ fit _ same => Option.some.inj same ▸ fit
  refine (Makes.eat _).pass fun percent => requireRows_related.makes.pass fun _ => ?_
  refine (fetchUnit_related percent).makes.pass fun unit => .ret (need_le_of_children ?_)
  exact forall_maybe.2 fun e mem => (Nat.add_comm _ _).trans_le (fit e mem)

end Clauses

section Queries

theorem row_needs (h : level.Affords T most) :
    Makes T (row level) fun es => ∀ e ∈ es, e.toll + 1 ≤ most :=
  (Makes.require _ _).pass fun _ => (values_needs h).bind fun _ fit =>
    (Makes.require _ _).pass fun _ => .ret fit

theorem filter_need {e : Expr} (h : e.toll + 1 ≤ most) : (Node.filter e).toll ≤ most :=
  need_le_of_children (List.forall_mem_singleton.2 ((Nat.add_comm _ _).trans_le h))

theorem having_need {e : Expr} (h : e.toll + 1 ≤ most) : (Node.having e).toll ≤ most :=
  need_le_of_children (List.forall_mem_singleton.2 ((Nat.add_comm _ _).trans_le h))

theorem groupBy_need {es : List Expr} (h : ∀ e ∈ es, e.toll + 1 ≤ most) :
    (Node.groupBy es).toll ≤ most :=
  need_le_of_children (forall_each.2 fun e mem => (Nat.add_comm _ _).trans_le (h e mem))

theorem simpleSelect_needs (h : scope.Affords T most) {o : Option With}
    (common : ∀ w ∈ o, (Node.commonTables w).toll ≤ most) :
    Makes T (simpleSelect scope o) fun s => (Query.simple s).need ≤ most := by
  refine (selectClause_needs h.here).bind fun clause chosen => ?_
  refine (Makes.after (Makes.eat _) (fromClause_needs h)).bind fun source read => ?_
  refine (Makes.after (Makes.eat _) (h.here.expr 0)).bind fun condition kept => ?_
  refine (Makes.after (Makes.eat _) (values_needs h.here)).bind fun groupBy grouped => ?_
  refine (Makes.after (Makes.eat _) (h.here.expr 0)).bind fun having held => ?_
  refine (Makes.after (Makes.eat _) (windowDef_needs h).commaList).bind fun windows defined => ?_
  refine (orderBy_needs h.here).bind fun orderBy ordered => ?_
  refine (limit_needs h.here).bind fun limit limited => ?_
  refine (Makes.after (Makes.eat _) (fetch_needs h.here)).bind fun fetch fetched => ?_
  refine (Makes.after (Makes.eat _) lock_related.makes).bind fun lock _ => .ret (need_le_of_children ?_)
  simp only [Node.children, Query.children, Select.children, List.forall_mem_append,
    List.forall_mem_singleton, forall_maybe, partRise, Nat.zero_add]
  exact ⟨⟨⟨⟨⟨⟨⟨⟨⟨⟨common, chosen⟩, read⟩, fun e mem => filter_need (kept e mem)⟩,
    fun es mem => groupBy_need (grouped es mem)⟩, fun e mem => having_need (held e mem)⟩,
    fun ws mem => need_le_of_children (forall_each.2 fun w inside =>
      (Nat.zero_add _).trans_le ((defined ws mem).2 w inside))⟩, ordered⟩, limited⟩, fetched⟩,
    fun mode _ => (need_eq_zero rfl).trans_le (Nat.zero_le _)⟩

/-- The rows take no level, as they are no tuples of their own. -/
theorem values_need {rows : List (List Expr)} (h : ∀ row ∈ rows, ∀ e ∈ row, e.toll + 1 ≤ most) :
    (Query.values rows).need ≤ most := by
  refine most_le_iff.2 (forall_each.2 fun row mem => ?_)
  have inside : (Node.expr (.tuple row)).need ≤ most :=
    need_le_of_children (forall_each.2 fun e one => (Nat.add_comm _ _).trans_le (h row mem e one))
  exact (Nat.zero_add _).trans_le inside

theorem term_needs (h : scope.Affords T most) {o : Option With}
    (common : ∀ w ∈ o, (Node.commonTables w).toll ≤ most) :
    Makes T (term scope o) fun q => q.need ≤ most := by
  refine .choose (.eat _) (Makes.map ?_) (Makes.map (simpleSelect_needs h common))
  exact (row_needs h.here).commaList.post fun rows each => values_need each.2

theorem commonTable_needs (h : scope.Affords T most) :
    Makes T (commonTable scope) fun t => (Node.commonTable t).toll ≤ most := by
  refine Makes.name.bind fun name _ => Makes.columnNames.bind fun columns _ => ?_
  refine (Makes.require _ _).pass fun _ => materialized_related.makes.pass fun _ => ?_
  refine (Makes.require _ _).pass fun _ => (nested_needs h).bind fun q fit => .ret ?_
  refine need_le_of_children (forall_pair.2 ⟨?_, ?_⟩)
  · simp [partRise, sourceAlias_need]
  · change 2 + q.need ≤ most
    omega

theorem commonTables_needs (h : scope.Affords T most) :
    Makes T (commonTables scope) fun o => ∀ w ∈ o, (Node.commonTables w).toll ≤ most := by
  refine Makes.after (Makes.eat _) ((Makes.eat _).pass fun _ => ?_)
  refine (commonTable_needs h).commaList.bind fun tables each => ?_
  refine .choose (.look _ _) (.ret ?_) .fail
  exact need_le_of_children (forall_each.2 fun t mem => (Nat.zero_add _).trans_le (each.2 t mem))

theorem setOperation_needs (h : scope.Affords T most) : Makes T (setOperation scope) fun o =>
    ∀ operation ∈ o, operation.2.need ≤ most := by
  refine (Makes.accept.post fun _ _ => trivial).pass fun o => ?_
  cases o with
  | none => exact .ret nofun
  | some operator =>
    refine (term_needs h (o := none) fun w same => by cases same).bind fun q fit => .ret fun operation same => ?_
    exact Option.some.inj same ▸ fit

/-- The operands of set operations stand side by side. -/
theorem operations_need {operations : List (String × Query)} {first : Query} (left : first.need ≤ most)
    (each : ∀ operation ∈ operations, operation.2.need ≤ most) :
    (operations.foldl (fun left (operator, right) => .binary left operator right) first).need ≤ most := by
  induction operations generalizing first with
  | nil => exact left
  | cons operation operations ih =>
    obtain ⟨right, others⟩ := List.forall_mem_cons.1 each
    refine ih (need_le_of_children (List.forall_mem_cons.2 ⟨?_, forall_pair.2 ⟨?_, ?_⟩⟩)) others
    · exact (Nat.zero_add _).trans_le left
    · simp [partRise]
    · exact (Nat.zero_add _).trans_le right

theorem query_needs (h : scope.Affords T most) : Makes T (query scope) fun q => q.need ≤ most := by
  refine (commonTables_needs h).bind fun tables common => ?_
  refine (term_needs h common).bind fun first left => ?_
  exact (setOperation_needs h).many.bind fun operations each => .ret (operations_need left each)

end Queries

/-- No more levels are needed than are allowed. -/
theorem levelAt_needs (T : Token → Prop) (n : Nat) :
    (levelAt n).Affords T n ∧ (scopeAt n).Affords T n := by
  have all := levelAt_induction (P := fun n level => level.Sound T ∧ level.Affords T n)
    (S := fun n scope => scope.Sound T ∧ scope.Affords T n) (fun n s here inside => ?_) ?_
    (fun n s scope => ?_) n
  · exact all.imp And.right And.right
  · refine ⟨⟨here.1, fun level same => ?_⟩, here.2, fun level same => ?_⟩ <;>
      obtain ⟨fewer, rfl, below⟩ := inside level same
    · exact below.1
    · exact ⟨fewer, rfl, below.2⟩
  · refine ⟨⟨?_, ?_⟩, ?_, ?_⟩
    · exact fun _ _ _ _ _ _ run => by cases run
    · exact fun _ _ _ _ _ run => by cases run
    · exact fun _ _ _ _ _ _ run => by cases run
    · exact fun _ _ _ _ _ run => by cases run
  · exact ⟨⟨expression_sound scope.1, query_sound scope.1⟩,
      fun floor => (expression_needs scope.1 scope.2 floor).post fun e => Nat.succ_le_succ,
      (query_needs scope.2).post fun q => Nat.succ_le_succ⟩

theorem statementAt_needs (T : Token → Prop) (n : Nat) :
    Makes T (statementAt n) fun q => q.need + 1 ≤ n := by
  refine (levelAt_needs T n).1.query.bind fun q fit => (Makes.eat _).pass fun _ => ?_
  refine (Makes.peek.post fun _ _ => trivial).pass fun o => .ite (fun _ => ?_) fun _ => .ret fit
  exact fun ts a rest _ _ run => by cases run

end SqlQuery.Grammar
