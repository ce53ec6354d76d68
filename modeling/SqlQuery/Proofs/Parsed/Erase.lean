import SqlQuery.Proofs.Nesting.Rise
import SqlQuery.Proofs.Parsed.Node
import SqlQuery.Proofs.Tree.Erase

/-!
Without its redundant aliases a tree is one that the grammar gives as well, and it nests its parts as
deeply as before.
-/

namespace SqlQuery

open Child

namespace Expr

@[simp] theorem isValue_erase (e : Expr) : e.erase.isValue = e.isValue := by
  cases e <;> simp [erase, isValue]

@[simp] theorem isTuple_erase (e : Expr) : e.erase.isTuple = e.isTuple := by
  cases e <;> rfl

@[simp] theorem isPrimary_erase (e : Expr) : e.erase.isPrimary = e.isPrimary := by
  cases e <;> rfl

@[simp] theorem spine_erase : (e : Expr) → e.erase.spine = e.spine
  | .binary left _ _ => by simp [erase, spine, spine_erase left]
  | .between operand _ _ _ => by simp [erase, spine, spine_erase operand]
  | .cast input _ => by simp [erase, spine, spine_erase input]
  | .literal _ | .raw _ | .column _ | .function _ | .unary _ _ | .parameter _ | .array _ | .tuple _
  | .list _ | .case _ _ | .paren _ | .type _ | .specifiedString _ _ | .inlineQuery _ => rfl

@[simp] theorem edge_erase : (e : Expr) → e.erase.edge = e.edge
  | .binary _ _ right => by simp [erase, edge, edge_erase right]
  | .between _ _ upper _ => by simp [erase, edge, edge_erase upper]
  | .unary _ operand => by simp [erase, edge, edge_erase operand]
  | .literal _ | .raw _ | .column _ | .function _ | .parameter _ | .array _ | .tuple _ | .list _
  | .case _ _ | .cast _ _ | .paren _ | .type _ | .specifiedString _ _ | .inlineQuery _ => rfl

end Expr

/-- A part with its redundant aliases erased, under the same role. -/
def Child.erase (c : Child) : Child := (c.1, c.2.erase)

section Children

attribute [local simp] each maybe Child.erase Node.erase Option.toList_map Function.comp_def

theorem Expr.children_erase (e : Expr) : e.erase.children = e.children.map Child.erase := by
  cases e with
  | function call =>
    cases call
    simp [Expr.erase, FunctionCall.erase, children, FunctionCall.children]
  | type ref =>
    cases ref
    simp [Expr.erase, TypeRef.erase, children, TypeRef.children]
  | _ => simp [Expr.erase, children]

theorem Query.children_erase (q : Query) : q.erase.children = q.children.map Child.erase := by
  cases q with
  | simple s =>
    cases s
    simp [Query.erase, Select.erase, children, Select.children]
  | _ => simp [Query.erase, Expr.erase, children]

theorem DataSource.erase_node (d : DataSource) : d.erase.node = d.node.erase := by
  cases d <;> rfl

/-- May have an alias that is erased. -/
def Node.mayRepeat : Node → Bool
  | .selectItem _ | .source _ => true
  | _ => false

/-- The children are those of the node, without the redundant aliases and erased themselves. -/
theorem Node.children_erase (n : Node) : n.erase.children ⊆ n.children.map Child.erase := by
  suffices same : n.mayRepeat = false → n.erase.children = n.children.map Child.erase by
    cases n with
    | selectItem i =>
      have parts : (Node.selectItem i).erase.children =
          ("value", (Node.expr i.value).erase) :: maybe "alias" .identifier i.effectiveAlias := by
        change (Node.selectItem i.erase).children = _
        rw [SelectItem.erase_eq]
        rfl
      rw [parts]
      refine List.cons_subset.2 ⟨List.mem_cons_self, forall_maybe.2 fun name mem => ?_⟩
      exact List.mem_cons_of_mem _ (List.mem_map.2 ⟨_, mem_maybe (Option.mem_filter_iff.1 mem).1, rfl⟩)
    | source s =>
      have parts : (Node.source s).erase.children =
          ("datasource", s.data.node.erase) :: maybe "alias" .sourceAlias s.effectiveAlias := by
        change (Node.source s.erase).children = _
        rw [Source.erase_eq, children, DataSource.erase_node]
      rw [parts]
      refine List.cons_subset.2 ⟨List.mem_cons_self, forall_maybe.2 fun a mem => ?_⟩
      exact List.mem_cons_of_mem _ (List.mem_map.2 ⟨_, mem_maybe (Option.mem_filter_iff.1 mem).1, rfl⟩)
    | _ => exact fun c mem => same rfl ▸ mem
  intro never
  cases n with
  | expr e => exact e.children_erase
  | query q => exact q.children_erase
  | selectItem _ | source _ => exact Bool.noConfusion never
  | switch s => cases s; simp [children, Switch.erase]
  | branch b => cases b; simp [children, Branch.erase]
  | select c => cases c; simp [children, SelectClause.erase]
  | distinct d => cases d <;> simp [children, Distinct.children, Distinct.erase, Expr.erase]
  | fromClause f => cases f; simp [children, From.erase]
  | join j =>
    obtain ⟨_, _, _, _ | ⟨_ | _⟩⟩ := j <;>
      simp [children, Join.erase, JoinCondition.erase, JoinCondition.children, Expr.erase]
  | orderItem i => cases i; simp [children, OrderItem.erase]
  | overClause o => cases o <;> simp [children, Over.erase, Over.children]
  | windowSpec w => cases w; simp [children, WindowSpec.erase]
  | frame f =>
    obtain ⟨_, start, stop⟩ := f
    have offset (b : Bound) : b.erase.offset? = b.offset?.map Expr.erase := by cases b <;> rfl
    cases stop <;> simp [children, Frame.erase, offset]
  | windowDef w => cases w; simp [children, WindowDef.erase]
  | commonTables w => cases w; simp [children, With.erase]
  | commonTable t => cases t; simp [children, CommonTable.erase]
  | limit l => cases l; simp [children, Limit.erase]
  | fetch f => cases f; simp [children, Fetch.erase]
  | _ => simp [children]

end Children

namespace Node

variable {n m : Node}

theorem mem_children_erase {c : Child} (mem : c ∈ n.erase.children) :
    ∃ part ∈ n.children, c = part.erase := by
  obtain ⟨part, inside, same⟩ := List.mem_map.1 (n.children_erase mem)
  exact ⟨part, inside, same.symm⟩

/-- Every node of the erased tree is one of the tree with its redundant aliases erased. -/
theorem mem_walk_erase (mem : m ∈ n.erase.walk) : ∃ k ∈ n.walk, m = k.erase := by
  induction n using children_induction generalizing m with
  | step n ih =>
    rcases mem_walk.1 mem with rfl | ⟨c, child, inside⟩
    · exact ⟨n, mem_walk.2 (.inl rfl), rfl⟩
    · obtain ⟨part, partMem, rfl⟩ := mem_children_erase child
      obtain ⟨k, walked, same⟩ := ih part partMem inside
      exact ⟨k, mem_walk.2 (.inr ⟨part, partMem, walked⟩), same⟩

end Node

variable {T : Token → Prop}

theorem AreValues.erase {es : List Expr} (h : AreValues es) : AreValues (es.map Expr.erase) := by
  refine ⟨by simpa using h.1, List.forall_mem_map.2 fun e mem => ?_⟩
  rw [Expr.isValue_erase]
  exact h.2 e mem

theorem WindowSpec.hasBounds_erase (w : WindowSpec) : w.erase.hasBounds = w.hasBounds := by
  cases w
  simp [WindowSpec.erase, hasBounds]

theorem Query.IsTerm.erase {q : Query} (h : q.IsTerm) : q.erase.IsTerm := by
  cases q with
  | simple s =>
    cases s
    simpa [Query.erase, Select.erase, IsTerm] using h
  | values rows => trivial
  | binary left operator right => exact h.elim

namespace Expr

theorem IsListing.erase {e : Expr} (h : e.IsListing) : e.erase.IsListing := by
  cases e with
  | list es =>
    rw [Expr.erase, eraseExprs_eq]
    exact ⟨by simpa using h.1, h.2.erase⟩
  | tuple es => simpa [IsListing, Expr.erase, isValue] using h
  | _ => exact h

theorem Argues.erase {name : String} {e : Expr} (h : e.Argues name) : e.erase.Argues name := by
  cases h with
  | wildcard => exact .wildcard
  | query q => exact .query q.erase
  | distinct listing => exact .distinct listing.erase
  | extract call lower isValue => exact .extract call lower (by rwa [isValue_erase])
  | listing listing => exact .listing listing.erase

theorem IsOperand.erase {operator : String} {e : Expr} (h : e.IsOperand operator) :
    e.erase.IsOperand operator := by
  cases found : Power.prefix? operator with
  | some power => simpa [IsOperand, found] using h
  | none =>
    simp only [IsOperand, found] at h ⊢
    obtain ⟨rfl, q, rfl⟩ := h
    exact ⟨rfl, q.erase, rfl⟩

theorem Parsed.erase {e : Expr} (h : e.Parsed T) : e.erase.Parsed T := by
  cases e with
  | function call =>
    cases call
    refine ⟨h.1, h.2.1, fun e mem => ?_⟩
    obtain ⟨inner, same, rfl⟩ := Option.map_eq_some_iff.1 ((eraseExpr?_eq _).symm.trans mem)
    exact (h.2.2 inner same).erase
  | unary operator operand => exact h.imp_right IsOperand.erase
  | binary left operator right =>
    refine h.imp (And.imp_right ?_) ?_
    · rintro ⟨field, rfl⟩
      exact ⟨field, rfl⟩
    · simp [IsRightSide]
  | array content =>
    rcases h with ⟨q, rfl⟩ | ⟨es, rfl, each⟩
    · exact .inl ⟨q.erase, rfl⟩
    · exact .inr ⟨_, rfl, by simpa using each⟩
  | tuple es => simpa [Expr.erase, Parsed] using h
  | case subject switch =>
    cases switch
    simpa [Expr.erase, Switch.erase, Parsed] using h
  | cast input ref => simpa [Expr.erase, Parsed] using h
  | paren inner => simpa [Expr.erase, Parsed] using h
  | between operand lower upper negated => simpa [Expr.erase, Parsed] using h
  | type ref =>
    cases ref
    refine ⟨h.1, fun e mem => ?_⟩
    obtain ⟨inner, same, rfl⟩ := Option.map_eq_some_iff.1 ((eraseExpr?_eq _).symm.trans mem)
    obtain ⟨es, rfl, values⟩ := h.2 inner same
    exact ⟨_, rfl, by simpa using values.erase⟩
  | _ => exact h

end Expr

theorem Query.Fits.erase {q : Query} (h : q.Fits) : q.erase.Fits := by
  cases q with
  | simple s =>
    cases s
    obtain ⟨condition, groupBy, having, windows, ordered⟩ := h
    refine ⟨by simpa [Select.erase] using condition, fun es mem => ?_,
      by simpa [Select.erase] using having, by simpa [Select.erase] using windows,
      by simpa [Select.erase] using ordered⟩
    obtain ⟨items, same, rfl⟩ := Option.map_eq_some_iff.1 ((eraseValues?_eq _).symm.trans mem)
    exact (groupBy items same).erase
  | values rows =>
    refine ⟨by simpa [Query.erase] using h.1, ?_⟩
    rw [eraseRows_eq]
    exact List.forall_mem_map.2 fun row mem => (h.2 row mem).erase
  | binary left operator right => exact ⟨h.1, h.2.erase⟩

theorem WindowSpec.Fits.erase {w : WindowSpec} (h : w.Fits) : w.erase.Fits := by
  cases w
  refine ⟨fun es mem => ?_, by simpa [WindowSpec.erase] using h.2⟩
  obtain ⟨values, same, rfl⟩ := Option.map_eq_some_iff.1 ((eraseValues?_eq _).symm.trans mem)
  exact (h.1 values same).erase

theorem Bound.forall_offset_erase {b : Bound} (h : ∀ e ∈ b.offset?, e.isValue) :
    ∀ e ∈ b.erase.offset?, e.isValue := by
  cases b with
  | preceding offset | following offset => simpa [Bound.erase, offset?] using h
  | _ => simp [Bound.erase, offset?]

theorem Node.Parsed.erase {n : Node} (h : n.Parsed T) : n.erase.Parsed T := by
  cases n with
  | expr e => exact Expr.Parsed.erase h
  | query q => exact Query.Fits.erase h
  | branch b =>
    cases b
    simpa [Node.erase, Branch.erase, Parsed] using h
  | select c =>
    cases c
    simpa [Node.erase, SelectClause.erase, Parsed] using h
  | selectItem i =>
    cases i
    exact ⟨by simpa [SelectItem.erase] using h.1,
      fun name mem => h.2 name (Option.mem_filter_iff.1 mem).1⟩
  | distinct d =>
    cases d with
    | rows => trivial
    | on values =>
      simp only [Node.erase, Distinct.erase, eraseExprs_eq]
      exact AreValues.erase h
  | join j =>
    obtain ⟨kind, lateral, source, condition⟩ := j
    refine ⟨h.1, fun c mem => ?_⟩
    obtain ⟨inner, same, rfl⟩ := Option.map_eq_some_iff.1 ((eraseCondition?_eq _).symm.trans mem)
    have fits := h.2 inner same
    cases inner with
    | on e => simpa [JoinCondition.erase, JoinCondition.Fits] using fits
    | columns names => exact fits
  | orderItem i =>
    cases i
    simpa [Node.erase, OrderItem.erase, Parsed] using h
  | overClause o => cases o <;> exact h
  | windowSpec w => exact WindowSpec.Fits.erase h
  | frame f =>
    obtain ⟨unit, start, stop⟩ := f
    refine ⟨Bound.forall_offset_erase h.1, fun b mem => ?_⟩
    obtain ⟨inner, same, rfl⟩ := Option.map_eq_some_iff.1 ((eraseBound?_eq _).symm.trans mem)
    exact Bound.forall_offset_erase (h.2 inner same)
  | windowDef w =>
    cases w
    simpa [Node.erase, WindowDef.erase, Parsed, WindowSpec.hasBounds_erase] using h
  | commonTables w =>
    cases w
    simpa [Node.erase, With.erase, Parsed] using h
  | limit l =>
    cases l
    simpa [Node.erase, Limit.erase, Parsed] using h
  | fetch f =>
    cases f
    simpa [Node.erase, Fetch.erase, Parsed] using h
  | _ => exact h

theorem Node.AllParsed.erase {n : Node} (h : n.AllParsed T) : n.erase.AllParsed T := by
  intro m mem
  obtain ⟨k, walked, rfl⟩ := mem_walk_erase mem
  exact (h k walked).erase

namespace Node

@[simp] theorem isTuple_erase (n : Node) : n.erase.isTuple = n.isTuple := by
  cases n with
  | expr e => cases e <;> rfl
  | _ => rfl

theorem isRows_erase (n : Node) : n.erase.isRows = n.isRows := by
  cases n with
  | query q => cases q <;> rfl
  | _ => rfl

theorem argumentRise_erase (n : Node) : n.erase.argumentRise = n.argumentRise := by
  cases n with
  | expr e => cases e <;> rfl
  | _ => rfl

theorem listedRise_erase (n : Node) : n.erase.listedRise = n.listedRise := by
  cases n with
  | expr e => cases e <;> rfl
  | _ => rfl

theorem erase_expr (e : Expr) : (Node.expr e).erase = .expr e.erase := rfl

theorem partRise_erase (n : Node) (c : Child) : n.erase.partRise c.erase = n.partRise c := by
  obtain ⟨role, m⟩ := c
  cases n with
  | expr e =>
    cases e <;>
      simp [erase_expr, Expr.erase, Child.erase, partRise, argumentRise_erase, listedRise_erase]
  | overClause _ | windowDef _ | source _ | commonTable _ => cases m <;> rfl
  | _ => rfl

theorem rise_erase (n : Node) (c : Child) : n.erase.rise c.erase = n.rise c := by
  rw [rise, partRise_erase, isRows_erase]
  simp [rise, Child.erase]

/-- No part is nested more deeply once the redundant aliases are erased. -/
theorem levels_erase_le (n : Node) : n.erase.levels ≤ n.levels := by
  induction n using children_induction with
  | step n ih =>
    refine most_le_iff.2 fun c mem => ?_
    obtain ⟨part, inside, rfl⟩ := mem_children_erase mem
    rw [rise_erase]
    exact Nat.le_trans (Nat.add_le_add_left (ih part inside) _) (most_le_iff.1 (Nat.le_refl _) part inside)

end Node

end SqlQuery
