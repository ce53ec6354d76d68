import SqlQuery.Proofs.Nesting.Rise
import SqlQuery.Proofs.Written.Renumber

/-!
With its parameters numbered a tree is still one that the grammar gives, and it nests its parts as
deeply as before: neither depends on the names of parameters.
-/

namespace SqlQuery

open Child

variable {k : Nat}

namespace Expr

@[simp] theorem isValue_renumber (e : Expr) (k : Nat) : (e.renumber k).1.isValue = e.isValue := by
  cases e <;> simp [renumber, isValue, renumberExprs_eq]

@[simp] theorem isTuple_renumber (e : Expr) (k : Nat) : (e.renumber k).1.isTuple = e.isTuple := by
  cases e <;> rfl

@[simp] theorem spine_renumber : (e : Expr) → ∀ k, (e.renumber k).1.spine = e.spine
  | .binary left _ _, k => by simp [renumber, spine, spine_renumber left]
  | .between operand _ _ _, k => by simp [renumber, spine, spine_renumber operand]
  | .cast input _, k => by simp [renumber, spine, spine_renumber input]
  | .literal _, _ | .raw _, _ | .column _, _ | .function _, _ | .unary _ _, _ | .parameter _, _
  | .array _, _ | .tuple _, _ | .list _, _ | .case _ _, _ | .paren _, _ | .type _, _
  | .specifiedString _ _, _ | .inlineQuery _, _ => rfl

@[simp] theorem edge_renumber : (e : Expr) → ∀ k, (e.renumber k).1.edge = e.edge
  | .binary _ _ right, k => by simp [renumber, edge, edge_renumber right]
  | .between _ _ upper _, k => by simp [renumber, edge, edge_renumber upper]
  | .unary _ operand, k => by simp [renumber, edge, edge_renumber operand]
  | .literal _, _ | .raw _, _ | .column _, _ | .function _, _ | .parameter _, _ | .array _, _
  | .tuple _, _ | .list _, _ | .case _ _, _ | .cast _ _, _ | .paren _, _ | .type _, _
  | .specifiedString _ _, _ | .inlineQuery _, _ => rfl

/-- What is written first is numbered first. -/
theorem first_renumber : (e : Expr) → ∀ k, (e.renumber k).1.first = (e.first.renumber k).1
  | .binary left _ _, k => by simp [renumber, first, first_renumber left]
  | .between operand _ _ _, k => by simp [renumber, first, first_renumber operand]
  | .cast input ref, k => by
    cases primary : input.isPrimary with
    | true => simp [renumber, first, first_renumber input, primary]
    | false => simp [renumber, first, primary]
  | .literal _, _ | .raw _, _ | .column _, _ | .function _, _ | .unary _ _, _ | .parameter _, _
  | .array _, _ | .tuple _, _ | .list _, _ | .case _ _, _ | .paren _, _ | .type _, _
  | .specifiedString _ _, _ | .inlineQuery _, _ => rfl

theorem leadName?_renumber (e : Expr) (k : Nat) : (e.renumber k).1.leadName? = e.leadName? := by
  rw [leadName?, first_renumber, leadName?]
  cases e.first with
  | function call => cases call; rfl
  | _ => rfl

theorem Avoids.renumber {e : Expr} {words : List String} (h : e.Avoids words) (k : Nat) :
    (e.renumber k).1.Avoids words := by
  rw [Avoids, leadName?_renumber]
  exact h

theorem head?_listed_renumber (e : Expr) (k : Nat) :
    (e.renumber k).1.listed.head? = e.listed.head?.map fun v => (v.renumber k).1 := by
  cases e with
  | list es => simp [Expr.renumber, listed, renumberExprs_eq]
  | _ => rfl

end Expr

theorem AreValues.renumber {es : List Expr} (h : AreValues es) (k : Nat) :
    AreValues (renumberExprs es k).1 := by
  rw [renumberExprs_eq]
  refine ⟨by simpa using h.1, forall_mem_mapM fun e mem k => ?_⟩
  rw [Expr.isValue_renumber]
  exact h.2 e mem

theorem WindowSpec.hasBounds_renumber (w : WindowSpec) (k : Nat) :
    (w.renumber k).1.hasBounds = w.hasBounds := by
  cases w
  simp [WindowSpec.renumber, hasBounds]

theorem Query.IsTerm.renumber {q : Query} (h : q.IsTerm) (k : Nat) : (q.renumber k).1.IsTerm := by
  cases q with
  | simple s =>
    cases s
    simpa [Query.renumber, Select.renumber, IsTerm] using h
  | values rows => trivial
  | binary left operator right => exact h.elim

namespace Expr

theorem IsListing.renumber {e : Expr} (h : e.IsListing) (k : Nat) : (e.renumber k).1.IsListing := by
  cases e with
  | list es =>
    refine ⟨?_, h.2.renumber k⟩
    rw [renumberExprs_eq, length_mapM]
    exact h.1
  | tuple es =>
    have own := (Expr.tuple es).isValue_renumber k
    exact own.trans h
  | _ => exact h

theorem IsContent.renumber {e : Expr} (h : e.IsContent) (k : Nat) : (e.renumber k).1.IsContent := by
  refine ⟨h.1.renumber k, ?_⟩
  rw [head?_listed_renumber]
  simp only [Option.mem_def, Option.map_eq_some_iff]
  rintro _ ⟨v, head, rfl⟩
  exact (h.2 v head).renumber k

theorem IsArgument.renumber {name : String} {e : Expr} (h : e.IsArgument name) (k : Nat) :
    (e.renumber k).1.IsArgument name := by
  rcases h with rfl | ⟨q, rfl⟩ | ⟨content, rfl, listing⟩ | ⟨field, value, rfl, call, word, lower, isValue⟩ |
    content
  · exact .inl rfl
  · exact .inr (.inl ⟨_, rfl⟩)
  · exact .inr (.inr (.inl ⟨_, rfl, listing.renumber k⟩))
  · refine .inr (.inr (.inr (.inl ⟨field, _, rfl, call, word, lower, ?_⟩)))
    rw [isValue_renumber]
    exact isValue
  · exact .inr (.inr (.inr (.inr (content.renumber k))))

theorem IsOperand.renumber {operator : String} {e : Expr} (h : e.IsOperand operator) (k : Nat) :
    (e.renumber k).1.IsOperand operator := by
  cases found : Power.prefix? operator with
  | some power => simpa [IsOperand, found] using h
  | none =>
    simp only [IsOperand, found] at h ⊢
    obtain ⟨rfl, q, rfl⟩ := h
    exact ⟨rfl, _, rfl⟩

theorem IsRightOf.renumber {operator : String} {power : Nat} {right : Expr}
    (h : right.IsRightOf operator power) (k : Nat) : (right.renumber k).1.IsRightOf operator power := by
  unfold IsRightOf at h ⊢
  rw [isTuple_renumber, isValue_renumber, spine_renumber, first_renumber, isTuple_renumber]
  refine h.imp_right fun ⟨isValue, spine, open_⟩ => ⟨isValue, spine, fun member => ?_⟩
  refine ⟨fun inner same => ?_, (open_ member).2⟩
  cases first : right.first with
  | paren own => exact (open_ member).1 own first
  | _ => rw [first] at same; cases same

theorem Fits.renumber {e : Expr} (h : e.Fits) (k : Nat) : (e.renumber k).1.Fits := by
  cases e with
  | function call =>
    cases call
    refine ⟨h.1, h.2.1, h.2.2.1, fun e mem => ?_⟩
    obtain ⟨inner, same, rfl⟩ := Option.map_eq_some_iff.1 ((renumberExpr?_fst k _).symm.trans mem)
    exact (h.2.2.2 inner same).renumber k
  | unary operator operand => exact h.imp_right fun own => own.renumber k
  | binary left operator right =>
    refine h.imp_right ?_
    rintro ⟨power, found, plain, isValue, edge, side⟩
    refine ⟨power, found, plain, ?_, ?_, side.renumber _⟩
    · rwa [isValue_renumber]
    · rwa [edge_renumber]
  | array content =>
    rcases h with ⟨q, rfl⟩ | ⟨es, rfl, each⟩
    · exact .inl ⟨_, rfl⟩
    · refine .inr ⟨_, rfl, ?_⟩
      rw [renumberExprs_eq]
      exact forall_mem_mapM fun e mem k => (e.isValue_renumber k).trans (each e mem)
  | tuple es =>
    have each : ∀ e ∈ (renumberExprs es k).1, e.isValue := by
      rw [renumberExprs_eq]
      exact forall_mem_mapM fun e mem k => (e.isValue_renumber k).trans (h e mem)
    exact each
  | case subject switch =>
    cases switch
    simpa [Expr.renumber, Switch.renumber, Fits, renumberBranches_eq] using h
  | cast input ref => simpa [Expr.renumber, Fits] using h
  | paren inner => simpa [Expr.renumber, Fits] using h
  | between operand lower upper negated => simpa [Expr.renumber, Fits] using h
  | type ref =>
    cases ref
    refine ⟨h.1, fun e mem => ?_⟩
    obtain ⟨inner, same, rfl⟩ := Option.map_eq_some_iff.1 ((renumberExpr?_fst k _).symm.trans mem)
    obtain ⟨es, rfl, values⟩ := h.2 inner same
    exact ⟨_, rfl, values.renumber k⟩
  | _ => exact h

end Expr

theorem Query.Fits.renumber {q : Query} (h : q.Fits) (k : Nat) : (q.renumber k).1.Fits := by
  cases q with
  | simple s =>
    cases s
    obtain ⟨condition, groupBy, having, windows, ordered⟩ := h
    refine ⟨by simpa [Select.renumber] using condition, fun es mem => ?_,
      by simpa [Select.renumber] using having, by simpa [Select.renumber] using windows,
      by simpa [Select.renumber] using ordered⟩
    obtain ⟨items, same, rfl⟩ := Option.map_eq_some_iff.1 ((renumberValues?_fst _ _).symm.trans mem)
    rw [← renumberExprs_eq]
    exact (groupBy items same).renumber _
  | values rows =>
    have each : ∀ row ∈ (renumberRows rows k).1, AreValues row := by
      rw [renumberRows_eq]
      refine forall_mem_mapM fun row mem k => ?_
      rw [← renumberExprs_eq]
      exact (h.2 row mem).renumber k
    refine ⟨?_, each⟩
    rw [renumberRows_eq]
    simpa using h.1
  | binary left operator right => exact ⟨h.1, h.2.renumber _⟩

theorem WindowSpec.Fits.renumber {w : WindowSpec} (h : w.Fits) (k : Nat) : (w.renumber k).1.Fits := by
  cases w
  refine ⟨fun es mem => ?_, ?_⟩
  · obtain ⟨values, same, rfl⟩ := Option.map_eq_some_iff.1 ((renumberValues?_fst k _).symm.trans mem)
    rw [← renumberExprs_eq]
    exact (h.1 values same).renumber k
  · simpa [WindowSpec.renumber] using h.2

theorem Bound.Fits.renumber {b : Bound} (h : b.Fits) (k : Nat) : (b.renumber k).1.Fits := by
  cases b with
  | preceding offset | following offset =>
    intro e mem
    obtain rfl : (offset.renumber k).1 = e := Option.some.inj mem
    exact ⟨(offset.isValue_renumber k).trans (h offset rfl).1, (h offset rfl).2.renumber k⟩
  | _ => simp [Bound.renumber, Fits, offset?]

theorem Node.Fits.renumber {n : Node} (h : n.Fits) (k : Nat) : (n.renumber k).1.Fits := by
  cases n with
  | expr e => exact Expr.Fits.renumber h k
  | query q => exact Query.Fits.renumber h k
  | branch b =>
    cases b
    simpa [Node.renumber, Branch.renumber, Fits] using h
  | select c =>
    cases c
    simpa [Node.renumber, SelectClause.renumber, Fits, renumberItems_eq] using h
  | selectItem i =>
    obtain ⟨value, aliasName⟩ := i
    refine ⟨(value.isValue_renumber k).trans h.1, h.2.1, ?_⟩
    exact (SelectItem.effectiveAlias_renumber value aliasName k).trans h.2.2
  | distinct d =>
    cases d with
    | rows => trivial
    | on values => exact AreValues.renumber h k
  | join j =>
    obtain ⟨kind, lateral, source, condition⟩ := j
    refine ⟨h.1, fun c mem => ?_⟩
    obtain ⟨inner, same, rfl⟩ := Option.map_eq_some_iff.1 ((renumberCondition?_fst _ _).symm.trans mem)
    have fits := h.2 inner same
    cases inner with
    | on e => exact (e.isValue_renumber _).trans fits
    | columns names => exact fits
  | source s =>
    obtain ⟨data, sourceAlias⟩ := s
    exact (Source.effectiveAlias_renumber data sourceAlias k).trans h
  | orderItem i =>
    cases i
    simpa [Node.renumber, OrderItem.renumber, Fits] using h
  | overClause o => cases o <;> exact h
  | windowSpec w => exact WindowSpec.Fits.renumber h k
  | frame f =>
    obtain ⟨unit, start, stop⟩ := f
    refine ⟨h.1.renumber k, fun b mem => ?_⟩
    obtain ⟨inner, same, rfl⟩ := Option.map_eq_some_iff.1 ((renumberBound?_fst _ _).symm.trans mem)
    exact (h.2 inner same).renumber _
  | windowDef w =>
    cases w
    simpa [Node.renumber, WindowDef.renumber, Fits, WindowSpec.hasBounds_renumber] using h
  | commonTables w =>
    cases w
    simpa [Node.renumber, With.renumber, Fits, renumberTables_eq] using h
  | limit l =>
    cases l
    simpa [Node.renumber, Limit.renumber, Fits] using h
  | fetch f =>
    obtain ⟨position, count, unit⟩ := f
    refine ⟨fun e mem => ?_, fun percent => ?_⟩
    · obtain ⟨inner, same, rfl⟩ := Option.map_eq_some_iff.1 ((renumberExpr?_fst _ _).symm.trans mem)
      exact ⟨(inner.isValue_renumber k).trans (h.1 inner same).1, (h.1 inner same).2.renumber k⟩
    · simpa [Fetch.renumber] using h.2 percent
  | _ => exact h

/-- Each part of the first list is one of the second, with its parameters numbered. -/
def Child.Numbers (numbered parts : List Child) : Prop :=
  ∀ c ∈ numbered, ∃ part ∈ parts, ∃ k, c = (part.1, (part.2.renumber k).1)

namespace Child.Numbers

variable {α : Type} {c part : Child} {cs ds parts others : List Child} {f : α → StateM Nat α}
  {role : String} {node : α → Node}

theorem nil : Numbers [] parts := nofun

theorem append (first : Numbers cs parts) (second : Numbers ds others) :
    Numbers (cs ++ ds) (parts ++ others) := by
  refine List.forall_mem_append.2 ⟨fun c mem => ?_, fun c mem => ?_⟩
  · obtain ⟨part, inside, same⟩ := first c mem
    exact ⟨part, List.mem_append_left _ inside, same⟩
  · obtain ⟨part, inside, same⟩ := second c mem
    exact ⟨part, List.mem_append_right _ inside, same⟩

theorem cons (first : ∃ k, c = (part.1, (part.2.renumber k).1)) (others : Numbers cs parts) :
    Numbers (c :: cs) (part :: parts) := by
  have own : Numbers [c] [part] := List.forall_mem_singleton.2 ⟨part, List.mem_singleton_self _, first⟩
  exact own.append others

theorem each {as : List α} {listed : StateM Nat (List α)} (same : ∀ a k, node (f a k).1 = ((node a).renumber k).1)
    (eq : listed = as.mapM f) : Numbers (each role node (listed k).1) (each role node as) := by
  subst eq
  exact forall_each.2 (forall_mem_mapM fun a mem k =>
    ⟨_, mem_each mem, k, congrArg (Prod.mk role) (same a k)⟩)

theorem maybe {o o' : Option α} (same : ∀ a k, node (f a k).1 = ((node a).renumber k).1)
    (eq : o' = o.map fun a => (f a k).1) : Numbers (maybe role node o') (maybe role node o) := by
  subst eq
  refine forall_maybe.2 fun b mem => ?_
  obtain ⟨a, inside, rfl⟩ := Option.map_eq_some_iff.1 mem
  exact ⟨_, mem_maybe inside, k, congrArg (Prod.mk role) (same a k)⟩

theorem fixed (same : ∀ c ∈ cs, (c.2.renumber 0).1 = c.2) : Numbers cs cs :=
  fun c mem => ⟨c, mem, 0, congrArg (Prod.mk c.1) (same c mem).symm⟩

theorem names (names : List String) :
    Numbers (Child.each role .identifier names) (Child.each role .identifier names) :=
  fixed (forall_each.2 fun _ _ => rfl)

theorem names? (name : Option String) :
    Numbers (Child.maybe role .identifier name) (Child.maybe role .identifier name) :=
  fixed (forall_maybe.2 fun _ _ => rfl)

end Child.Numbers

open Child.Numbers

theorem numbers_exprs {role : String} (es : List Expr) (k : Nat) :
    Child.Numbers (each role .expr (renumberExprs es k).1) (each role .expr es) :=
  .each (fun _ _ => rfl) (renumberExprs_eq es)

theorem numbers_expr? {role : String} (o : Option Expr) (k : Nat) :
    Child.Numbers (maybe role .expr (renumberExpr? o k).1) (maybe role .expr o) :=
  .maybe (fun _ _ => rfl) (renumberExpr?_fst k o)

theorem Expr.children_renumber (e : Expr) (k : Nat) :
    Child.Numbers (e.renumber k).1.children e.children := by
  cases e with
  | literal _ | raw _ | parameter _ => exact nil
  | column ref => exact append (names _) (.cons ⟨0, rfl⟩ nil)
  | function call =>
    cases call
    refine append (append (append (names _) (.cons ⟨0, rfl⟩ nil)) (numbers_expr? _ _)) ?_
    exact .maybe (fun _ _ => rfl) (renumberOver?_fst _ _)
  | unary operator operand => exact .cons ⟨0, rfl⟩ (.cons ⟨_, rfl⟩ nil)
  | binary left operator right => exact .cons ⟨_, rfl⟩ (.cons ⟨0, rfl⟩ (.cons ⟨_, rfl⟩ nil))
  | array content => exact .cons ⟨_, rfl⟩ nil
  | tuple es | list es => exact numbers_exprs es k
  | case subject switch => exact append (numbers_expr? _ _) (.cons ⟨_, rfl⟩ nil)
  | cast input ref => exact .cons ⟨_, rfl⟩ (.cons ⟨_, rfl⟩ nil)
  | paren inner => exact .cons ⟨_, rfl⟩ nil
  | between operand lower upper negated => exact .cons ⟨_, rfl⟩ (.cons ⟨_, rfl⟩ (.cons ⟨_, rfl⟩ nil))
  | type ref =>
    cases ref
    exact .cons ⟨0, rfl⟩ (numbers_expr? _ _)
  | specifiedString specifier value => exact .cons ⟨0, rfl⟩ (.cons ⟨0, rfl⟩ nil)
  | inlineQuery query => exact .cons ⟨_, rfl⟩ nil

theorem numbers_order {role : String} (o : Option (List OrderItem)) (k : Nat) :
    Child.Numbers (maybe role .orderBy (renumberOrder? o k).1) (maybe role .orderBy o) := by
  refine .maybe (fun is k => ?_) (renumberOrder?_fst k o)
  rw [← renumberOrderItems_eq]
  rfl

theorem numbers_values {role : String} {node : List Expr → Node} (o : Option (List Expr))
    (same : ∀ es k, node (renumberExprs es k).1 = ((node es).renumber k).1) (k : Nat) :
    Child.Numbers (maybe role node (renumberValues? o k).1) (maybe role node o) := by
  refine .maybe (fun es k => ?_) (renumberValues?_fst k o)
  rw [← renumberExprs_eq]
  exact same es k

theorem Query.children_renumber (q : Query) (k : Nat) :
    Child.Numbers (q.renumber k).1.children q.children := by
  have windowed (ws : List WindowDef) (k : Nat) :
      Node.windows (ws.mapM WindowDef.renumber k).1 = ((Node.windows ws).renumber k).1 := by
    rw [← renumberWindowDefs_eq]
    rfl
  cases q with
  | simple s =>
    cases s
    refine append (append (append (append (append (append (append (append (append (append ?_ ?_) ?_) ?_) ?_)
      ?_) ?_) ?_) ?_) ?_) (fixed (forall_maybe.2 fun _ _ => rfl))
    · exact .maybe (fun _ _ => rfl) (renumberWith?_fst _ _)
    · exact .cons ⟨_, rfl⟩ nil
    · exact .maybe (fun _ _ => rfl) (renumberFrom?_fst _ _)
    · exact .maybe (fun _ _ => rfl) (renumberExpr?_fst _ _)
    · exact numbers_values _ (fun _ _ => rfl) _
    · exact .maybe (fun _ _ => rfl) (renumberExpr?_fst _ _)
    · exact .maybe windowed (renumberWindows?_fst _ _)
    · exact numbers_order _ _
    · exact .maybe (fun _ _ => rfl) (renumberLimit?_fst _ _)
    · exact .maybe (fun _ _ => rfl) (renumberFetch?_fst _ _)
  | binary left operator right => exact .cons ⟨_, rfl⟩ (.cons ⟨0, rfl⟩ (.cons ⟨_, rfl⟩ nil))
  | values rows =>
    refine .each (fun row k => ?_) (renumberRows_eq rows)
    rw [← renumberExprs_eq]
    rfl

theorem DataSource.renumber_node (x : DataSource) (k : Nat) :
    (x.renumber k).1.node = (x.node.renumber k).1 := by
  cases x <;> rfl

theorem Bound.offset?_renumber (b : Bound) (k : Nat) :
    (b.renumber k).1.offset? = b.offset?.map fun e => (e.renumber k).1 := by
  cases b <;> rfl

theorem Node.children_renumber (n : Node) (k : Nat) :
    Child.Numbers (n.renumber k).1.children n.children := by
  cases n with
  | expr e => exact e.children_renumber k
  | query q => exact q.children_renumber k
  | identifier _ | lock _ => exact nil
  | switch s =>
    cases s
    exact append (.each (fun _ _ => rfl) (renumberBranches_eq _)) (numbers_expr? _ _)
  | branch b =>
    cases b
    exact .cons ⟨_, rfl⟩ (.cons ⟨_, rfl⟩ nil)
  | select c =>
    cases c
    exact append (.maybe (fun _ _ => rfl) (renumberDistinct?_fst _ _))
      (.each (fun _ _ => rfl) (renumberItems_eq _))
  | selectItem i =>
    cases i
    exact .cons ⟨_, rfl⟩ (names? _)
  | distinct x =>
    cases x with
    | rows => exact nil
    | on values => exact .cons ⟨k, rfl⟩ nil
  | fromClause f =>
    cases f
    exact .cons ⟨_, rfl⟩ (.each (fun _ _ => rfl) (renumberJoins_eq _))
  | join j =>
    obtain ⟨kind, lateral, source, condition⟩ := j
    refine .cons ⟨0, rfl⟩ (.cons ⟨_, rfl⟩ ?_)
    obtain _ | ⟨_ | columns⟩ := condition
    · exact nil
    · exact .cons ⟨_, rfl⟩ nil
    · change Child.Numbers (each "using" .identifier columns ++ []) (each "using" .identifier columns ++ [])
      exact append (names columns) nil
  | source s =>
    cases s
    exact .cons ⟨k, congrArg (Prod.mk "datasource") (DataSource.renumber_node _ k)⟩
      (fixed (forall_maybe.2 fun _ _ => rfl))
  | table t => exact append (names _) (.cons ⟨0, rfl⟩ nil)
  | sourceAlias a => exact .cons ⟨0, rfl⟩ (names _)
  | filter e | having e => exact .cons ⟨k, rfl⟩ nil
  | groupBy es | partitionBy es => exact numbers_exprs es k
  | orderBy is => exact .each (fun _ _ => rfl) (renumberOrderItems_eq is)
  | orderItem i =>
    cases i
    exact .cons ⟨_, rfl⟩ nil
  | overClause o =>
    cases o with
    | named name => exact .cons ⟨0, rfl⟩ nil
    | window spec => exact .cons ⟨k, rfl⟩ nil
  | windowSpec w =>
    cases w
    refine append (append (numbers_values _ (fun _ _ => rfl) _) (numbers_order _ _)) ?_
    exact .maybe (fun _ _ => rfl) (renumberFrame?_fst _ _)
  | frame f =>
    obtain ⟨unit, start, stop⟩ := f
    refine append (.maybe (fun _ _ => rfl) (start.offset?_renumber k)) ?_
    cases stop with
    | none => exact nil
    | some b => exact .maybe (fun _ _ => rfl) (b.offset?_renumber _)
  | windowDef w =>
    cases w
    exact .cons ⟨0, rfl⟩ (.cons ⟨_, rfl⟩ nil)
  | windows ws => exact .each (fun _ _ => rfl) (renumberWindowDefs_eq ws)
  | commonTables w =>
    cases w
    exact .each (fun _ _ => rfl) (renumberTables_eq _)
  | commonTable t =>
    cases t
    exact .cons ⟨0, rfl⟩ (.cons ⟨_, rfl⟩ nil)
  | limit l =>
    cases l
    exact append (numbers_expr? _ _) (numbers_expr? _ _)
  | fetch f =>
    cases f
    exact numbers_expr? _ _

namespace Node

variable {n m : Node}

/-- Every node of the numbered tree is one of the tree with its parameters numbered. -/
theorem mem_walk_renumber (mem : m ∈ (n.renumber k).1.walk) :
    ∃ inner ∈ n.walk, ∃ k, m = (inner.renumber k).1 := by
  induction n using children_induction generalizing m k with
  | step n ih =>
    rcases mem_walk.1 mem with rfl | ⟨c, child, inside⟩
    · exact ⟨n, mem_walk.2 (.inl rfl), k, rfl⟩
    · obtain ⟨part, partMem, j, rfl⟩ := n.children_renumber k c child
      obtain ⟨inner, walked, same⟩ := ih part partMem inside
      exact ⟨inner, mem_walk.2 (.inr ⟨part, partMem, walked⟩), same⟩

theorem WellFormed.renumber (h : n.WellFormed) (k : Nat) : (n.renumber k).1.WellFormed := by
  intro m mem
  obtain ⟨inner, walked, j, rfl⟩ := mem_walk_renumber mem
  exact (h inner walked).renumber j

@[simp] theorem isTuple_renumber (n : Node) (k : Nat) : (n.renumber k).1.isTuple = n.isTuple := by
  cases n with
  | expr e => cases e <;> rfl
  | _ => rfl

theorem isRows_renumber (n : Node) (k : Nat) : (n.renumber k).1.isRows = n.isRows := by
  cases n with
  | query q => cases q <;> rfl
  | _ => rfl

theorem argumentRise_renumber (n : Node) (k : Nat) :
    (n.renumber k).1.argumentRise = n.argumentRise := by
  cases n with
  | expr e => cases e <;> rfl
  | _ => rfl

theorem listedRise_renumber (n : Node) (k : Nat) : (n.renumber k).1.listedRise = n.listedRise := by
  cases n with
  | expr e => cases e <;> rfl
  | _ => rfl

theorem renumber_expr (e : Expr) (k : Nat) :
    ((Node.expr e).renumber k).1 = .expr (e.renumber k).1 := rfl

theorem partRise_renumber (n : Node) (role : String) (m : Node) (k j : Nat) :
    (n.renumber k).1.partRise (role, (m.renumber j).1) = n.partRise (role, m) := by
  cases n with
  | expr e =>
    cases e <;>
      simp [renumber_expr, Expr.renumber, partRise, argumentRise_renumber, listedRise_renumber]
  | overClause _ | windowDef _ | source _ | commonTable _ => cases m <;> rfl
  | _ => rfl

theorem rise_renumber (n : Node) (role : String) (m : Node) (k j : Nat) :
    (n.renumber k).1.rise (role, (m.renumber j).1) = n.rise (role, m) := by
  rw [rise, partRise_renumber, isRows_renumber]
  simp [rise]

/-- No part is nested more deeply once the parameters are numbered. -/
theorem levels_renumber_le (n : Node) (k : Nat) : (n.renumber k).1.levels ≤ n.levels := by
  induction n using children_induction generalizing k with
  | step n ih =>
    refine most_le_iff.2 fun c mem => ?_
    obtain ⟨part, inside, j, rfl⟩ := n.children_renumber k c mem
    rw [rise_renumber]
    exact Nat.le_trans (Nat.add_le_add_left (ih part inside j) _)
      (most_le_iff.1 (Nat.le_refl _) part inside)

end Node

end SqlQuery
