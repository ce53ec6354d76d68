import SqlQuery.Grammar.Query
import SqlQuery.Proofs.Parsed.Operand

/-!
The clauses of a select: each of them is read with the parts that it has to have.
-/

namespace SqlQuery.Grammar

open Rule

variable {T : Token → Prop} {level : Level} {scope : Scope}

theorem distinct_sound (h : level.Sound T) :
    Makes T (distinct level) fun o => ∀ d ∈ o, (Node.distinct d).AllParsed T := by
  refine .choose (.eat _) ?_ (.choose (.eat _) ?_ ((Makes.eat _).pass fun _ => .ret nofun))
  · refine (Makes.require _ _).pass fun _ => (values_sound h).bind fun es parsed => ?_
    refine (Makes.require _ _).pass fun _ => .ret fun d same => Option.some.inj same ▸ ?_
    refine .of_children (areValues parsed) ?_
    simpa [Node.children, Distinct.children] using list_allParsed parsed.2
  · exact .ret fun d same => Option.some.inj same ▸ Node.allParsed_leaf trivial rfl

theorem selectItem_sound (h : level.Sound T) :
    Makes T (selectItem level) fun i => (Node.selectItem i).AllParsed T := by
  refine (h.value 0).bind fun e parsed => (Makes.eat _).pass fun _ => (Makes.look _ _).pass fun _ => ?_
  have item {aliasName : Option String} (named : ∀ name ∈ aliasName, IsName name) :
      (Node.selectItem ⟨e, aliasName⟩).AllParsed T := by
    refine .of_children ⟨parsed.isValue, named⟩ ?_
    simp only [Node.children, List.forall_mem_cons, Child.forall_maybe, Node.allParsed_identifier,
      implies_true, and_true]
    exact parsed.all
  refine .ite (fun _ => Makes.name.bind fun name named => .ret (item ?_)) fun _ => .ret (item ?_)
  · exact fun b same => Option.some.inj same ▸ named
  · intro b mem
    cases mem

theorem selectClause_sound (h : level.Sound T) :
    Makes T (selectClause level) fun c => (Node.select c).AllParsed T := by
  refine (Makes.require _ _).pass fun _ => (distinct_sound h).bind fun distinct first => ?_
  refine (selectItem_sound h).commaList.bind fun items parsed => .ret (.of_children parsed.1 ?_)
  simp only [Node.children, List.forall_mem_append, Child.forall_maybe, Child.forall_each]
  exact ⟨first, parsed.2⟩

theorem qualifiedName_sound : Makes T qualifiedName fun names =>
    names ≠ [] ∧ ∀ name ∈ names, IsName name := by
  refine Makes.name.bind fun first named => ?_
  refine (Makes.many (Makes.after (Makes.eat _) Makes.name)).bind fun names each => ?_
  exact .ret ⟨List.cons_ne_nil _ _, List.forall_mem_cons.2 ⟨named, each⟩⟩

theorem nested_sound (h : scope.Sound T) :
    Makes T (scope.enter nestedQuery) fun q => (Node.query q).AllParsed T :=
  h.enter fun _ => nestedQuery_sound

theorem dataSource_sound (h : scope.Sound T) :
    Makes T (dataSource scope) fun d => d.node.AllParsed T := by
  refine .choose (.eat _) (Makes.map (nested_sound h)) ?_
  refine qualifiedName_sound.bind fun names each => ?_
  have spaces : ∀ name ∈ names.dropLast, IsName name :=
    fun name mem => each.2 name (List.dropLast_subset names mem)
  have last : IsName (names.getLastD "") := by
    rw [List.getLastD_eq_getLast?, List.getLast?_eq_some_getLast each.1]
    exact each.2 _ (List.getLast_mem each.1)
  refine .choose (.look _ _) (Makes.map (functionCall_sound h spaces last)) (.ret ?_)
  refine .of_children (n := .table ⟨names.dropLast, names.getLastD ""⟩) ⟨last, spaces⟩ ?_
  simp only [Node.children, List.forall_mem_append, List.forall_mem_singleton, Child.forall_each,
    Node.allParsed_identifier, implies_true, and_self]

theorem sourceAlias_allParsed {a : SourceAlias} (h : a.Fits) : (Node.sourceAlias a).AllParsed T := by
  refine .of_children h ?_
  simp only [Node.children, List.forall_mem_cons, Child.forall_each, Node.allParsed_identifier,
    implies_true, and_self]

theorem sourceAlias_sound (isTable : Bool) : Makes T (sourceAlias isTable) fun o =>
    ∀ a ∈ o, (Node.sourceAlias a).AllParsed T := by
  refine (Makes.eat _).pass fun _ => (Makes.look _ _).pass fun _ => (Makes.look _ _).pass fun _ => ?_
  refine .ite (fun _ => Makes.name.bind fun name named => ?_) fun _ => .ret nofun
  refine Makes.columnNames.bind fun columns each => .ret fun a same => Option.some.inj same ▸ ?_
  exact sourceAlias_allParsed ⟨named, each⟩

theorem source_sound (h : scope.Sound T) :
    Makes T (source scope) fun s => (Node.source s).AllParsed T := by
  refine (dataSource_sound h).bind fun data parsed => (sourceAlias_sound _).bind fun o named => ?_
  refine .ret (.of_children trivial ?_)
  simp only [Node.children, List.forall_mem_cons, Child.forall_maybe]
  exact ⟨parsed, named⟩

theorem joinCondition_sound (h : level.Sound T) : Makes T (joinCondition level) fun o =>
    ∀ c ∈ o, c.Fits ∧ ∀ child ∈ c.children, child.2.AllParsed T := by
  refine .choose (.eat _) ?_ (.choose (.eat _) ?_ (.ret nofun))
  · refine (h.value 0).bind fun e parsed => .ret fun c same => Option.some.inj same ▸ ?_
    exact ⟨parsed.isValue, by simpa [JoinCondition.children] using parsed.all⟩
  · refine Makes.nameList.bind fun names each => .ret fun c same => Option.some.inj same ▸ ?_
    exact ⟨each, Child.forall_each.2 fun name _ => Node.allParsed_identifier name⟩

theorem join_allParsed {j : Join} (kind : JoinParsed T j.kind)
    (source : (Node.source j.source).AllParsed T)
    (condition : ∀ c ∈ j.condition, c.Fits ∧ ∀ child ∈ c.children, child.2.AllParsed T) :
    (Node.join j).AllParsed T := by
  refine .of_children ⟨kind, fun c mem => (condition c mem).1⟩ ?_
  simp only [Node.children, List.forall_mem_append, List.forall_mem_cons, Node.allParsed_raw,
    List.not_mem_nil, false_implies, implies_true, and_true, true_and, List.forall_mem_flatMap,
    Option.mem_toList]
  exact ⟨source, fun c mem => (condition c mem).2⟩

theorem join_sound (h : scope.Sound T) :
    Makes T (join scope) fun o => ∀ j ∈ o, (Node.join j).AllParsed T := by
  refine Makes.bind (Q := fun o => ∀ found ∈ o, JoinParsed T found.1) ?_ fun o found => ?_
  · refine Makes.accept.post fun o found start mem => ?_
    obtain ⟨t, known, accepted⟩ := found start mem
    unfold joinKind? at accepted
    split at accepted
    · cases accepted
      exact .inl rfl
    split at accepted
    · rename_i word
      simp only [isKind, Bool.and_eq_true, beq_iff_eq, List.isSuffixOf_iff_suffix] at word
      cases accepted
      exact .inr ⟨t, known, word.1, rfl, word.2⟩
    · cases accepted
  cases o with
  | none =>
    exact .ret fun j mem => by cases mem
  | some start =>
    obtain ⟨kind, comma⟩ := start
    refine (Makes.eat _).pass fun lateral => (source_sound h).bind fun source parsed => ?_
    refine .ite (fun _ => .ret fun j same => Option.some.inj same ▸ ?_) fun _ => ?_
    · exact join_allParsed (found _ rfl) parsed fun c mem => by cases mem
    · refine (joinCondition_sound h.here).bind fun condition each => ?_
      exact .ret fun j same => Option.some.inj same ▸ join_allParsed (found _ rfl) parsed each

theorem fromClause_sound (h : scope.Sound T) :
    Makes T (fromClause scope) fun f => (Node.fromClause f).AllParsed T := by
  refine (source_sound h).bind fun source parsed => (join_sound h).many.bind fun joins each => ?_
  exact .ret (.of_children trivial (List.forall_mem_cons.2 ⟨parsed, Child.forall_each.2 each⟩))

theorem windowDef_sound (h : scope.Sound T) :
    Makes T (windowDef scope) fun w => (Node.windowDef w).AllParsed T := by
  refine Makes.name.bind fun name named => (Makes.require _ _).pass fun _ => ?_
  refine (Makes.require _ _).pass fun _ => h.enter fun level sound => ?_
  refine Makes.bind (Q := fun w => w.hasBounds ∧ (Node.windowSpec w).AllParsed T) ?_ fun w spec => ?_
  · refine (windowSpec_sound sound).bind fun w parsed => ?_
    exact .ite (fun bounds => .ret ⟨bounds, parsed⟩) fun _ => .fail
  refine (Makes.require _ _).pass fun _ => .ret (.of_children ⟨named, spec.1⟩ ?_)
  simpa [Node.children] using spec.2

theorem eatRows_done : Makes T eatRows fun _ => True :=
  .choose (.eat _) (.ret trivial) (.eat _)

theorem offset_sound (h : level.Sound T) :
    Makes T (offset level) fun o => ∀ e ∈ o, e.IsParsed T :=
  Makes.after (Makes.eat _) <| (h.value 0).bind fun _ parsed => eatRows_done.pass fun _ => .ret parsed

theorem limit_allParsed {l : Limit} (some : l.limit.isSome ∨ l.offset.isSome)
    (limit : ∀ e ∈ l.limit, e.IsParsed T) (offset : ∀ e ∈ l.offset, e.IsParsed T) :
    (Node.limit l).AllParsed T := by
  refine .of_children ⟨some, fun e mem => (limit e mem).isValue, fun e mem => (offset e mem).isValue⟩ ?_
  simp only [Node.children, List.forall_mem_append, Child.forall_maybe]
  exact ⟨fun e mem => (limit e mem).all, fun e mem => (offset e mem).all⟩

theorem limit_sound (h : level.Sound T) :
    Makes T (limit level) fun o => ∀ l ∈ o, (Node.limit l).AllParsed T := by
  refine .choose (.eat _) ?_ ((offset_sound h).bind fun o skipped => ?_)
  · refine (h.value 0).bind fun e first => (offset_sound h).bind fun o second => ?_
    refine .ret fun l same => Option.some.inj same ▸ limit_allParsed (.inl rfl) ?_ second
    exact fun b same => Option.some.inj same ▸ first
  cases o with
  | none => exact .ret nofun
  | some value =>
    refine (Makes.after (Makes.eat _) (h.value 0)).bind fun o first => ?_
    exact .ret fun l same => Option.some.inj same ▸ limit_allParsed (.inr rfl) first skipped

/-- A count is left out only in front of `row` or `rows`. -/
theorem fetchCount_sound (h : level.Sound T) :
    Gets T (fun _ => True) (fetchCount level) fun o rest => (∀ e ∈ o, e.IsParsed T) ∧
      (o = none → ∀ t ∈ rest.head?, t.isWord "percent" = false) := by
  refine Gets.bind (Gets.look _ _) fun rows => Gets.ite (fun found => ?_) fun _ => ?_
  · refine Gets.ret fun ts looked => ⟨nofun, fun _ t head => ?_⟩
    have any := looked.2.trans found
    rw [← List.head?_eq_getElem?, Option.mem_def.1 head, Option.any_some, Bool.or_eq_true] at any
    have apart (word : String) (other : (Text.lower word == Text.lower "percent") = false)
        (isWord : t.isWord word = true) : t.isWord "percent" = false := by
      simp only [Token.isWord, Bool.and_eq_true, Text.sameIgnoringCase, beq_iff_eq] at isWord
      rw [Token.isWord, Text.sameIgnoringCase, isWord.2, other, Bool.and_false]
    exact any.elim (apart "row" (by decide)) (apart "rows" (by decide))
  · exact Gets.map (Gets.weaken (h.value 0) (fun _ _ => trivial) fun e rest parsed =>
      ⟨fun b same => Option.some.inj same ▸ parsed, nofun⟩)

theorem fetchUnit_sound (percent : Bool) :
    Makes T (fetchUnit percent) fun unit => unit = .percent → percent = true := by
  refine .choose (.eat _) (.ret ?_) (.ite (fun _ => .fail) fun _ => .choose (.eat _) ?_ .fail)
  · cases percent
    · exact nofun
    · exact fun _ => rfl
  · exact (Makes.require _ _).pass fun _ => .ret nofun

theorem fetch_sound (h : level.Sound T) :
    Makes T (fetch level) fun f => (Node.fetch f).AllParsed T := by
  refine (Makes.expect.post fun _ _ => trivial).pass fun position => ?_
  refine Gets.bind (fetchCount_sound h) fun count => ?_
  -- Without a count the word does not come.
  refine Gets.bind (Q := fun percent _ => (∀ e ∈ count, e.IsParsed T) ∧
    (percent = true → count.isSome)) (Gets.eat ?_ ?_) fun percent => ?_
  · intro t ts counted isPercent
    refine ⟨counted.1, fun _ => Option.isSome_iff_ne_none.2 fun none => ?_⟩
    exact absurd isPercent (by simp [counted.2 none t rfl])
  · exact fun ts counted => ⟨counted.1, nofun⟩
  intro ts f rest all counted run
  have last : Makes T (do
      requireRows
      return ⟨position, count, ← fetchUnit percent⟩) fun f => (Node.fetch f).AllParsed T := by
    refine Makes.pass (Makes.choose eatRows_done (.ret trivial) .fail) fun _ => ?_
    refine (fetchUnit_sound percent).bind fun unit whole => .ret ?_
    refine .of_children ⟨fun e mem => (counted.1 e mem).isValue, fun same => counted.2 (whole same)⟩ ?_
    exact Child.forall_maybe.2 fun e mem => (counted.1 e mem).all
  exact last ts f rest all trivial run

theorem lock_done : Makes T lock fun _ => True := by
  refine .choose (.eat _) (.ret trivial) (.choose (.eat _) (.ret trivial) (.choose (.eat _) ?_ ?_))
  · exact (Makes.require _ _).pass fun _ => (Makes.require _ _).pass fun _ => .ret trivial
  · exact .choose (.eat _) ((Makes.require _ _).pass fun _ => .ret trivial) .fail

end SqlQuery.Grammar
