import SqlQuery.Proofs.Nesting.Rise
import SqlQuery.Proofs.Reading.Query

/-!
Trees of the shape that the grammar gives are read back from their tokens, with as many levels allowed
as the steps of a path down open at most.
-/

namespace SqlQuery

namespace Grammar

open Rule Node Child

/-- With so many levels below it the node is read back. -/
def Reads (d : Dialect) (k : Nat) : Node → Prop
  | .expr e => e.isValue → ReadsSpine d (scopeAt k) e ∧ e.Begins d
  | .query q => ReadsChain d (scopeAt k) q
  | _ => True

/-- What is known where a node is read with so many levels: they suffice, and every node below is read
with the levels that it takes. -/
structure Parts (d : Dialect) (k : Nat) (n : Node) : Prop where
  levels : n.levels ≤ k
  known : ∀ m, n.Below m → ∀ j, m.span ≤ j → Reads d j m
  fits : n.WellFormed

theorem scopeAt_here (k : Nat) : (scopeAt k).here = levelAt k := by cases k <;> rfl

namespace Parts

variable {d : Dialect} {k j : Nat} {n : Node} {role : String}

section

variable (h : Parts d k n)

include h

theorem own : n.Fits := h.fits n (mem_walk.2 (.inl rfl))

/-- A part is read with the levels that are left. -/
theorem child {c : Child} (mem : c ∈ n.children) (left : k ≤ n.rise c + j) : Parts d j c.2 where
  levels := by
    have := most_le_iff.1 h.levels c mem
    unfold Node.levels
    omega
  known _ below := h.known _ ⟨c, mem, mem_walk.2 (.inr below)⟩
  fits := h.fits.below ⟨c, mem, mem_walk.2 (.inl rfl)⟩

/-- A part that takes no level of its own. -/
theorem part {c : Child} (mem : c ∈ n.children) : Parts d k c.2 :=
  h.child mem (Nat.le_add_left _ _)

theorem reads {c : Child} (mem : c ∈ n.children) (single : n.isRows = false)
    (left : k ≤ n.partRise c + j) : Reads d j c.2 := by
  refine h.known _ ⟨c, mem, mem_walk.2 (.inl rfl)⟩ j ?_
  have enough := most_le_iff.1 h.levels c mem
  rw [rise, single, Bool.not_false, Bool.and_true] at enough
  unfold span Node.levels
  omega

theorem succ {c : Child} (mem : c ∈ n.children) (deeper : 1 ≤ n.rise c) : ∃ j, k = j + 1 :=
  Nat.exists_eq_add_of_le' (by have := most_le_iff.1 h.levels c mem; omega)

variable {e : Expr} (mem : (role, .expr e) ∈ n.children) (single : n.isRows = false)
  (isValue : e.isValue)

include mem single isValue

theorem value (left : k ≤ n.partRise (role, .expr e) + j) :
    ReadsSpine d (scopeAt j) e ∧ e.Begins d :=
  h.reads mem single left isValue

/-- A value that is read at a level that is open already. -/
theorem here (one : 1 ≤ n.partRise (role, .expr e)) : (levelAt k).ReadsValue d e ∧ e.Begins d := by
  obtain ⟨j, rfl⟩ := h.succ mem (by unfold rise; omega)
  exact (h.value mem single isValue (by omega)).imp_left ReadsSpine.value

/-- A value that is read in parentheses. -/
theorem inside (two : 2 ≤ n.partRise (role, .expr e)) (same : k = j + 1) :
    (levelAt j).ReadsValue d e ∧ e.Begins d := by
  have enough := most_le_iff.1 h.levels _ mem
  obtain ⟨i, rfl⟩ : ∃ i, j = i + 1 := Nat.exists_eq_add_of_le' (by unfold rise at enough; omega)
  exact (h.value mem single isValue (by omega)).imp_left ReadsSpine.value

omit mem isValue

theorem nested {q : Query} (mem : (role, .query q) ∈ n.children) (two : 2 ≤ n.partRise (role, .query q))
    (same : k = j + 1) : (levelAt j).ReadsQuery d q := by
  have enough := most_le_iff.1 h.levels _ mem
  obtain ⟨i, rfl⟩ : ∃ i, j = i + 1 := Nat.exists_eq_add_of_le' (by unfold rise at enough; omega)
  have chain : ReadsChain d (scopeAt i) q := h.reads mem single (by omega)
  exact chain.query

end

section Values

theorem list {es : List Expr} (h : Parts d k (.expr (.list es))) (areValues : ∀ e ∈ es, e.isValue) :
    ∀ e ∈ es, (levelAt k).ReadsValue d e ∧ e.Begins d :=
  fun e mem => h.here (mem_each mem) rfl (areValues e mem) (Nat.le_refl 1)

theorem tuple {es : List Expr} (h : Parts d k (.expr (.tuple es))) (areValues : ∀ e ∈ es, e.isValue) :
    ∀ e ∈ es, (levelAt k).ReadsValue d e ∧ e.Begins d :=
  fun e mem => h.here (mem_each mem) rfl (areValues e mem) (Nat.le_refl 1)

theorem typeRef {ref : TypeRef} (h : Parts d k (.expr (.type ref))) : IsTypeName ref.name ∧
    ∀ a ∈ ref.argument, ∃ es, a = .list es ∧ es ≠ [] ∧ ∀ e ∈ es, (levelAt k).ReadsValue d e := by
  obtain ⟨name, argument⟩ := h.own
  refine ⟨name, fun a mem => ?_⟩
  obtain ⟨es, rfl, some, areValues⟩ := argument a mem
  have listed : Parts d k (.expr (.list es)) := h.part (List.mem_cons_of_mem _ (mem_maybe mem))
  exact ⟨es, rfl, some, fun e one => (listed.list areValues e one).1⟩

theorem orderItems {items : List OrderItem} (h : Parts d k (.orderBy items)) :
    ∀ i ∈ items, (levelAt k).ReadsValue d i.value := by
  intro i mem
  have item : Parts d k (.orderItem i) := h.part (mem_each mem)
  exact (item.here List.mem_cons_self rfl item.own (Nat.le_refl 1)).1

theorem bound (role : String) {b : Bound} (h : Parts d k n) (fits : b.Fits) (single : n.isRows = false)
    (mem : ∀ e ∈ b.offset?, (role, .expr e) ∈ n.children ∧ 1 ≤ n.partRise (role, .expr e)) :
    BoundReads d (levelAt k) b := by
  have known : ∀ e ∈ b.offset?, (levelAt k).ReadsValue d e ∧ e.Begins d :=
    fun e same => h.here (mem e same).1 single (fits e same).1 (mem e same).2
  exact ⟨fun e same => (known e same).1, fun e same => (known e same).2, fits⟩

theorem frame {f : Frame} (h : Parts d k (.frame f)) :
    BoundReads d (levelAt k) f.start ∧ ∀ b ∈ f.stop, BoundReads d (levelAt k) b := by
  obtain ⟨start, stop⟩ := h.own
  refine ⟨?_, fun b mem => ?_⟩
  · refine h.bound "start" start rfl fun e mem => ⟨?_, Nat.le_refl 1⟩
    exact List.mem_append_left _ (mem_maybe mem)
  · refine h.bound "end" (stop b mem) rfl fun e offset => ⟨?_, Nat.le_refl 1⟩
    exact List.mem_append_right _ (mem_maybe (Option.mem_bind_iff.2 ⟨b, mem, offset⟩))

theorem spec {w : WindowSpec} (h : Parts d k (.windowSpec w)) : SpecReads d (levelAt k) w := by
  have fits : w.Fits := h.own
  have framed : ∀ f ∈ w.frame, Parts d k (.frame f) := fun f mem =>
    h.part (List.mem_append_right _ (mem_maybe mem))
  refine ⟨fun es mem e one => ?_, fun items mem => ?_, fun f mem => (framed f mem).frame.1,
    fun f mem => (framed f mem).frame.2, fits⟩
  · have partition : Parts d k (.partitionBy es) :=
      h.part (List.mem_append_left _ (List.mem_append_left _ (mem_maybe mem)))
    exact (partition.here (mem_each one) rfl ((fits.1 es mem).2 e one) (Nat.le_refl 1)).1
  · have order : Parts d k (.orderBy items) :=
      h.part (List.mem_append_left _ (List.mem_append_right _ (mem_maybe mem)))
    exact order.orderItems

/-- A window in its parentheses is read a level deeper. -/
theorem overClause {o : Over} (h : Parts d k (.overClause o)) : OverReads d (scopeAt k) o := by
  refine ⟨?_, ?_⟩
  · rintro name rfl
    exact h.own
  · rintro spec rfl
    obtain ⟨j, rfl⟩ := h.succ List.mem_cons_self (Nat.le_refl 1)
    have inner : Parts d j (.windowSpec spec) := h.child List.mem_cons_self (Nat.le_of_eq (Nat.add_comm j 1))
    exact ⟨levelAt j, rfl, inner.spec⟩

end Values

section Calls

/-- The values of a list are its parts, and one value is a part by itself. -/
theorem contentReads {e : Expr} (fits : e.IsListing)
    (list : ∀ es, e = .list es → Parts d k (.expr (.list es)))
    (value : e.isValue → (levelAt k).ReadsValue d e ∧ e.Begins d) : ContentReads d (levelAt k) e := by
  have known : ∀ v ∈ e.listed, (levelAt k).ReadsValue d v ∧ v.Begins d := by
    cases e with
    | list es => exact (list es rfl).list fits.2.2
    | _ => exact List.forall_mem_singleton.2 (value fits)
  exact ⟨fits, fun v mem => (known v mem).1, fun v mem => (known v mem).2⟩

/-- One value that is no query is read two levels deeper than the call. -/
theorem argumentRise_of_isValue {e : Expr} (isValue : e.isValue) (single : ∀ q, e ≠ .inlineQuery q)
    (avoids : ∀ v ∈ e.listed.head?, v.Avoids [wildcardName]) : (Node.expr e).argumentRise = 2 := by
  cases e with
  | inlineQuery q => exact absurd rfl (single q)
  | list _ => cases isValue
  | unary operator _ => exact if_neg (by simpa [Expr.isValue] using isValue)
  | binary _ operator _ => exact if_neg (by simpa [Expr.isValue] using isValue)
  | column ref =>
    refine if_neg ?_
    rintro rfl
    have named := avoids _ rfl wildcardName rfl wildcardName List.mem_cons_self
    exact absurd named (by decide)
  | _ => rfl

theorem isArgument {call : FunctionCall} {e : Expr} (h : Parts d (k + 1) (.expr (.function call)))
    (same : call.argument = some e) (fits : e.IsArgument call.name) :
    ArgumentReads d (levelAt k) call.name (some e) := by
  have mem : ("argument", Node.expr e) ∈ (Node.expr (.function call)).children :=
    List.mem_append_left _ (List.mem_append_right _ (mem_maybe same))
  have inner (one : 1 ≤ (Node.expr e).argumentRise) : Parts d k (.expr e) := by
    have rise : (Node.expr (.function call)).partRise ("argument", .expr e) =
      (Node.expr e).argumentRise := rfl
    exact h.child mem (by rw [Node.rise, rise]; omega)
  rcases fits with rfl | ⟨q, rfl⟩ | ⟨content, rfl, listing⟩ |
    ⟨field, value, rfl, named, word, lower, isValue⟩ | ⟨listing, avoids⟩
  · exact .wildcard
  · have query : Parts d (k + 1) (.expr (.inlineQuery q)) := h.part mem
    exact .query (query.nested rfl List.mem_cons_self (Nat.le_refl 2) rfl) q.begins
  · have parts := inner (Nat.le_refl 1)
    refine .distinct (contentReads listing (fun es list => ?_) fun isValue => ?_)
    · subst list
      exact parts.part (List.mem_cons_of_mem _ List.mem_cons_self)
    · have child : ("expression", Node.expr content) ∈ (Node.expr (.unary "distinct" content)).children :=
        List.mem_cons_of_mem _ List.mem_cons_self
      refine parts.here child rfl isValue ?_
      cases content <;> first | exact Nat.le_refl 1 | cases isValue
  · have parts := inner (Nat.le_refl 1)
    have child : ("right", Node.expr value) ∈ (Node.expr (.binary (.raw field) "from" value)).children := by
      simp [Node.children, Expr.children]
    exact .extract named word lower (parts.here child rfl isValue (Nat.le_refl 1)).1
  · by_cases query : ∃ q, e = .inlineQuery q
    · obtain ⟨q, rfl⟩ := query
      have query : Parts d (k + 1) (.expr (.inlineQuery q)) := h.part mem
      exact .query (query.nested rfl List.mem_cons_self (Nat.le_refl 2) rfl) q.begins
    · have single : ∀ q, e ≠ .inlineQuery q := fun q same => query ⟨q, same⟩
      refine .content single (contentReads listing (fun es list => ?_) fun isValue => ?_) avoids
      · subst list
        exact inner (Nat.le_refl 1)
      · exact h.inside mem rfl isValue (argumentRise_of_isValue isValue single avoids).ge rfl

/-- The argument of a call is read a level deeper. -/
theorem call {call : FunctionCall} (h : Parts d k (.expr (.function call))) :
    CallReads d (scopeAt k) call := by
  have fits : call.Fits := h.own
  obtain ⟨j, rfl⟩ := h.succ (c := ("name", .expr (.raw call.name)))
    (List.mem_append_left _ (List.mem_append_left _ (List.mem_append_right _ List.mem_cons_self)))
    (Nat.le_refl 1)
  refine ⟨⟨levelAt j, rfl, ?_⟩, fun o mem => ?_, fits⟩
  · cases argument : call.argument with
    | none => exact .none
    | some e => exact h.isArgument argument (fits.2.2.2 e argument)
  · exact overClause (h.part (List.mem_append_right _ (mem_maybe mem)))

end Calls

end Parts

section Values

variable {d : Dialect} {k : Nat}

theorem unary_reads {operator : String} {operand : Expr}
    (h : Parts d k (.expr (.unary operator operand))) (isValue : (Expr.unary operator operand).isValue) :
    ReadsSpine d (scopeAt k) (.unary operator operand) ∧ (Expr.unary operator operand).Begins d := by
  have mem : ("expression", Node.expr operand) ∈ (Node.expr (.unary operator operand)).children :=
    List.mem_cons_of_mem _ List.mem_cons_self
  have isOperand : operand.IsOperand operator :=
    h.own.resolve_left (by simpa [Expr.isValue] using isValue)
  unfold Expr.IsOperand at isOperand
  split at isOperand
  case h_1 power found =>
    have rise : 1 ≤ (Node.expr (.unary operator operand)).partRise ("expression", .expr operand) := by
      have other : operator ≠ "exists" := by
        rintro rfl
        have none : Power.prefix? "exists" = none := by decide
        cases none.symm.trans found
      rw [Node.partRise, if_pos ⟨rfl, other⟩]
      cases operand <;> first | exact Nat.le_refl 1 | cases isOperand.1
    have known := h.here mem rfl isOperand.1 rise
    rw [← scopeAt_here] at known
    exact ⟨(unary_operand found known.1 isOperand.2).spine, Expr.begins_unary found known.2⟩
  case h_2 =>
    obtain ⟨rfl, q, rfl⟩ := isOperand
    have query : Parts d k (.expr (.inlineQuery q)) := h.part mem
    obtain ⟨j, rfl⟩ := query.succ List.mem_cons_self (Nat.le_succ 1)
    exact ⟨(exists_operand rfl (query.nested rfl List.mem_cons_self (Nat.le_refl 2) rfl)).spine,
      Expr.begins_exists q⟩

theorem binary_reads {left right : Expr} {operator : String}
    (h : Parts d k (.expr (.binary left operator right)))
    (isValue : (Expr.binary left operator right).isValue) :
    ReadsSpine d (scopeAt k) (.binary left operator right) ∧
      (Expr.binary left operator right).Begins d := by
  have rightMem : ("right", Node.expr right) ∈ (Node.expr (.binary left operator right)).children := by
    simp [Node.children, Expr.children]
  obtain ⟨power, found, plain, leftValue, edge, isRight⟩ :=
    h.own.resolve_left (by simpa [Expr.isValue] using isValue)
  have leftKnown := h.value List.mem_cons_self rfl leftValue (Nat.le_add_left _ _)
  refine ⟨binary_spine leftKnown.1 found edge fun mid closed => ?_,
    Expr.begins_binary found leftKnown.2⟩
  have infixPower : Power.infixPower operator = power := by simp [Power.infixPower, found]
  by_cases listed : Power.isMembership operator ∧ right.isTuple
  · cases right with
    | tuple es =>
      obtain ⟨j, rfl⟩ := h.succ rightMem (Nat.le_add_left 1 _)
      have inner : Parts d j (.expr (.tuple es)) := h.child rightMem (by
        rw [Node.rise]
        exact Nat.le_trans (Nat.le_of_eq (Nat.add_comm j 1)) (Nat.add_le_add_right (Nat.le_add_left 1 _) j))
      have known := inner.tuple inner.own
      exact operatorSuffix_membership listed.1 (membership_tuple rfl
        (fun e mem => (known e mem).1) fun e mem => (known e mem).2)
    | _ => cases listed.2
  · obtain ⟨rightValue, spine, single⟩ := isRight.resolve_left listed
    have rise : 1 ≤ (Node.expr (.binary left operator right)).partRise ("right", .expr right) := by
      rw [Node.partRise, if_pos ⟨rfl, listed⟩]
    have known := h.here rightMem rfl rightValue rise
    have closedRight : Closed (min (power + 1) right.edge) mid := by
      rw [Expr.edge, infixPower, if_neg (by simpa using listed)] at closed
      exact closed
    rw [← scopeAt_here] at known
    have read := known.1 (power + 1) mid spine closedRight
    cases member : Power.isMembership operator with
    | false => exact operatorSuffix_binary plain member read
    | true => exact operatorSuffix_membership member (membership_value known.2 (single member) read)

theorem between_reads {operand lower upper : Expr} {negated : Bool}
    (h : Parts d k (.expr (.between operand lower upper negated))) :
    ReadsSpine d (scopeAt k) (.between operand lower upper negated) ∧
      (Expr.between operand lower upper negated).Begins d := by
  obtain ⟨⟨isValue, edge⟩, ⟨lowerValue, lowerSpine, lowerEdge⟩, upperValue, upperSpine⟩ := h.own
  have known := h.value List.mem_cons_self rfl isValue (Nat.le_add_left _ _)
  have lowerMem : ("lower", Node.expr lower) ∈ (Expr.between operand lower upper negated).children :=
    List.mem_cons_of_mem _ List.mem_cons_self
  have upperMem : ("upper", Node.expr upper) ∈ (Expr.between operand lower upper negated).children :=
    List.mem_cons_of_mem _ (List.mem_cons_of_mem _ List.mem_cons_self)
  have lowerKnown := h.here lowerMem rfl lowerValue (Nat.le_refl 1)
  have upperKnown := h.here upperMem rfl upperValue (Nat.le_refl 1)
  rw [← scopeAt_here] at lowerKnown upperKnown
  exact ⟨between_spine known.1 edge lowerKnown.1 lowerSpine lowerEdge upperKnown.1 upperSpine,
    Expr.begins_between known.2⟩

theorem cast_reads {input : Expr} {ref : TypeRef} (h : Parts d k (.expr (.cast input ref))) :
    ReadsSpine d (scopeAt k) (.cast input ref) ∧ (Expr.cast input ref).Begins d := by
  have isValue : input.isValue := h.own
  have typeMem : ("type", Node.expr (.type ref)) ∈ (Node.expr (.cast input ref)).children :=
    List.mem_cons_of_mem _ List.mem_cons_self
  by_cases primary : input.isPrimary = true
  · have known := h.value List.mem_cons_self rfl isValue (Nat.le_add_left _ _)
    have type : Parts d k (.expr (.type ref)) := h.part typeMem
    obtain ⟨name, argument⟩ := type.typeRef
    rw [← scopeAt_here] at argument
    exact ⟨cast_spine known.1 primary name argument, Expr.begins_cast known.2 primary⟩
  · have other : input.isPrimary = false := by simpa using primary
    have inputRise : (Node.expr (.cast input ref)).partRise ("input", .expr input) = 2 := by
      simp [Node.partRise, other]
    have typeRise : (Node.expr (.cast input ref)).partRise ("type", .expr (.type ref)) = 1 := by
      simp [Node.partRise, other]
    obtain ⟨j, rfl⟩ := h.succ typeMem (by unfold Node.rise; omega)
    have known := h.inside List.mem_cons_self rfl isValue inputRise.ge rfl
    have type : Parts d j (.expr (.type ref)) := h.child typeMem (by unfold Node.rise; omega)
    obtain ⟨name, argument⟩ := type.typeRef
    exact ⟨(castCall_operand rfl other known.1 name argument).spine, Expr.begins_castCall other⟩

theorem case_reads {subject : Option Expr} {switch : Switch}
    (h : Parts d k (.expr (.case subject switch))) :
    ReadsSpine d (scopeAt k) (.case subject switch) ∧ (Expr.case subject switch).Begins d := by
  obtain ⟨subjectValue, some, otherwiseValue⟩ := h.own
  have switchMem : ("switch", Node.switch switch) ∈ (Node.expr (.case subject switch)).children :=
    List.mem_append_right _ List.mem_cons_self
  obtain ⟨j, rfl⟩ := h.succ switchMem (Nat.le_refl 1)
  have parts : Parts d j (.switch switch) := h.child switchMem (Nat.le_of_eq (Nat.add_comm j 1))
  have known : ∀ e ∈ subject, (levelAt j).ReadsValue d e ∧ e.Begins d := fun e mem =>
    h.inside (List.mem_append_left _ (mem_maybe mem)) rfl (subjectValue e mem) (Nat.le_refl 2) rfl
  have each : ∀ b ∈ switch.branches,
      (levelAt j).ReadsValue d b.key ∧ (levelAt j).ReadsValue d b.value := by
    intro b mem
    have branch : Parts d j (.branch b) := parts.part (List.mem_append_left _ (mem_each mem))
    obtain ⟨key, value⟩ := branch.own
    exact ⟨(branch.here List.mem_cons_self rfl key (Nat.le_refl 1)).1,
      (branch.here (List.mem_cons_of_mem _ List.mem_cons_self) rfl value (Nat.le_refl 1)).1⟩
  have otherwise : ∀ e ∈ switch.otherwise, (levelAt j).ReadsValue d e := fun e mem =>
    (parts.here (List.mem_append_right _ (mem_maybe mem)) rfl (otherwiseValue e mem) (Nat.le_refl 1)).1
  have reads : CaseReads d (levelAt j) subject switch := ⟨known, some, each, otherwise⟩
  exact ⟨(case_operand rfl reads).spine, Expr.begins_case some fun e mem => (known e mem).2⟩

theorem array_reads {content : Expr} (h : Parts d k (.expr (.array content))) :
    ReadsSpine d (scopeAt k) (.array content) ∧ (Expr.array content).Begins d := by
  rcases h.own with ⟨q, rfl⟩ | ⟨es, rfl, areValues⟩
  · have query : Parts d k (.expr (.inlineQuery q)) := h.part List.mem_cons_self
    obtain ⟨j, rfl⟩ := query.succ List.mem_cons_self (Nat.le_succ 1)
    have reads := query.nested rfl List.mem_cons_self (Nat.le_refl 2) rfl
    exact ⟨(arrayQuery_operand rfl reads q.begins).spine, Expr.begins_arrayQuery q⟩
  · obtain ⟨j, rfl⟩ := h.succ List.mem_cons_self (Nat.le_refl 1)
    have inner : Parts d j (.expr (.list es)) :=
      h.child List.mem_cons_self (Nat.le_of_eq (Nat.add_comm j 1))
    have known := inner.list areValues
    exact ⟨(arrayList_operand rfl (fun e mem => (known e mem).1) fun e mem => (known e mem).2).spine,
      Expr.begins_arrayList es⟩

/-- A tuple is read a level above its values. -/
theorem tuple_reads {es : List Expr} (h : Parts d k (.expr (.tuple es)))
    (isValue : (Expr.tuple es).isValue) :
    ReadsSpine d (scopeAt (k + 1)) (.tuple es) ∧ (Expr.tuple es).Begins d := by
  have several : 2 ≤ es.length := by simpa [Expr.isValue] using isValue
  have known := h.tuple h.own
  have some : es ≠ [] := by rintro rfl; simp at several
  exact ⟨(tuple_operand rfl several (fun e mem => (known e mem).1) fun e mem => (known e mem).2).spine,
    Expr.begins_tuple some fun e mem => (known e mem).2⟩

/-- Every value that is no tuple is read back. -/
theorem expr_reads {e : Expr} (h : Parts d k (.expr e)) (single : (Node.expr e).isTuple = false)
    (isValue : e.isValue) : ReadsSpine d (scopeAt k) e ∧ e.Begins d := by
  cases e with
  | raw _ | type _ | list _ => cases isValue
  | tuple _ => cases single
  | literal value => exact ⟨(literal_operand h.own).spine, Expr.begins_literal value⟩
  | column ref => exact ⟨(column_operand h.own).spine, Expr.begins_column ref⟩
  | parameter name => exact ⟨(parameter_operand name).spine, Expr.begins_parameter name⟩
  | specifiedString specifier value =>
    exact ⟨(specifiedString_operand h.own).spine, Expr.begins_specifiedString h.own⟩
  | function call => exact ⟨(function_operand h.call).spine, Expr.begins_function h.call.fits.1⟩
  | unary operator operand => exact unary_reads h isValue
  | binary left operator right => exact binary_reads h isValue
  | between operand lower upper negated => exact between_reads h
  | cast input ref => exact cast_reads h
  | case subject switch => exact case_reads h
  | array content => exact array_reads h
  | paren inner =>
    obtain ⟨j, rfl⟩ := h.succ List.mem_cons_self (Nat.le_add_right_of_le (Nat.le_succ 1))
    have known := h.inside List.mem_cons_self rfl h.own (Nat.le_refl 2) rfl
    exact ⟨(paren_operand rfl known.1 known.2).spine, Expr.begins_paren known.2⟩
  | inlineQuery q =>
    obtain ⟨j, rfl⟩ := h.succ List.mem_cons_self (Nat.le_succ 1)
    have reads := h.nested rfl List.mem_cons_self (Nat.le_refl 2) rfl
    exact ⟨(inlineQuery_operand rfl reads q.begins).spine, Expr.begins_inlineQuery q⟩

end Values

namespace Parts

variable {d : Dialect} {k : Nat}

theorem data {s : Source} (h : Parts d k (.source s)) : DataReads d (scopeAt k) s.data := by
  obtain ⟨data, sourceAlias⟩ := s
  have mem : ("datasource", data.node) ∈ (Node.source ⟨data, sourceAlias⟩).children :=
    List.mem_cons_self
  cases data with
  | table ref =>
    obtain ⟨named, names⟩ := (h.part mem).own
    exact .table named names
  | subQuery q =>
    obtain ⟨j, rfl⟩ := h.succ mem (Nat.le_succ 1)
    exact .query rfl (h.nested rfl mem (Nat.le_refl 2) rfl)
  | function call => exact .function (Parts.call (h.part mem))

theorem source {s : Source} (h : Parts d k (.source s)) : SourceReads d (scopeAt k) s :=
  ⟨h.data, fun _ mem => (h.part (List.mem_cons_of_mem _ (mem_maybe mem))).own, h.own⟩

theorem join {j : Join} (h : Parts d k (.join j)) : JoinReads d (scopeAt k) j := by
  obtain ⟨kind, fits⟩ := h.own
  obtain ⟨kind', lateral, source, condition⟩ := j
  have sourceMem : ("source", Node.source source) ∈
      (Node.join ⟨kind', lateral, source, condition⟩).children :=
    List.mem_append_left _ (List.mem_cons_of_mem _ List.mem_cons_self)
  refine ⟨kind, Parts.source (h.part sourceMem), fits, ?_⟩
  rintro e rfl
  have condition : ("on", Node.expr e) ∈ (Node.join ⟨kind', lateral, source, some (.on e)⟩).children :=
    List.mem_append_right _ List.mem_cons_self
  rw [scopeAt_here]
  exact (h.here condition rfl (fits _ rfl) (Nat.le_refl 1)).1

theorem fromClause {f : From} (h : Parts d k (.fromClause f)) : FromReads d (scopeAt k) f :=
  ⟨Parts.source (h.part List.mem_cons_self), fun _ mem =>
    Parts.join (h.part (List.mem_cons_of_mem _ (mem_each mem)))⟩

theorem items {c : SelectClause} (h : Parts d k (.select c)) : ItemsRead d (levelAt k) c.items ∧
    ∀ es, c.distinct = some (.on es) → AreValues es ∧ ∀ e ∈ es, (levelAt k).ReadsValue d e := by
  have each (i : SelectItem) (mem : i ∈ c.items) : Parts d k (.selectItem i) :=
    h.part (List.mem_append_right _ (mem_each mem))
  have known (i : SelectItem) (mem : i ∈ c.items) :
      (levelAt k).ReadsValue d i.value ∧ i.value.Begins d :=
    (each i mem).here List.mem_cons_self rfl (each i mem).own.1 (Nat.le_refl 1)
  refine ⟨⟨fun i mem => (known i mem).1, fun i mem => (known i mem).2,
    fun i mem => (each i mem).own.2.1, fun i mem => (each i mem).own.2.2, h.own⟩, fun es same => ?_⟩
  have distinct : Parts d k (.distinct (.on es)) := h.part (List.mem_append_left _ (mem_maybe same))
  have areValues : AreValues es := distinct.own
  have listed : Parts d k (.expr (.list es)) := distinct.part List.mem_cons_self
  exact ⟨areValues, fun e mem => (listed.list areValues.2 e mem).1⟩

/-- The definition of a window stands in parentheses. -/
theorem window {w : WindowDef} {j : Nat} (h : Parts d k (.windowDef w)) (same : k = j + 1) :
    WindowReads d (levelAt j) w := by
  subst same
  have inner : Parts d j (.windowSpec w.spec) :=
    h.child (List.mem_cons_of_mem _ List.mem_cons_self) (Nat.le_of_eq (Nat.add_comm j 1))
  exact ⟨h.own.1, h.own.2, inner.spec⟩

theorem windows {ws : List WindowDef} (h : Parts d k (.windows ws)) (nonempty : ws ≠ []) :
    ws ≠ [] ∧ ∃ level, (scopeAt k).inside = some level ∧ ∀ w ∈ ws, WindowReads d level w := by
  have each (w : WindowDef) (mem : w ∈ ws) : Parts d k (.windowDef w) := h.part (mem_each mem)
  obtain ⟨first, _, rfl⟩ := List.exists_cons_of_ne_nil nonempty
  obtain ⟨j, rfl⟩ := (each first List.mem_cons_self).succ (List.mem_cons_of_mem _ List.mem_cons_self)
    (Nat.le_refl 1)
  exact ⟨nonempty, levelAt j, rfl, fun w mem => (each w mem).window rfl⟩

theorem fetch {f : Fetch} (h : Parts d k (.fetch f)) : FetchReads d (levelAt k) f := by
  have fits : f.Fits := h.own
  have known (e : Expr) (mem : e ∈ f.count) : (levelAt k).ReadsValue d e ∧ e.Begins d :=
    h.here (mem_maybe mem) rfl (fits.1 e mem).1 (Nat.le_refl 1)
  exact ⟨fun e mem => (known e mem).1, fun e mem => (known e mem).2, fits⟩

theorem limit {l : Limit} (h : Parts d k (.limit l)) : (l.limit.isSome ∨ l.offset.isSome) ∧
    (∀ e ∈ l.limit, (levelAt k).ReadsValue d e) ∧ ∀ e ∈ l.offset, (levelAt k).ReadsValue d e := by
  obtain ⟨some, limits, offsets⟩ := h.own
  exact ⟨some,
    fun e mem => (h.here (List.mem_append_left _ (mem_maybe mem)) rfl (limits e mem) (Nat.le_refl 1)).1,
    fun e mem => (h.here (List.mem_append_right _ (mem_maybe mem)) rfl (offsets e mem) (Nat.le_refl 1)).1⟩

theorem tables {w : With} (h : Parts d k (.commonTables w)) : WithReads d (scopeAt k) w := by
  have nonempty : w.tables ≠ [] := h.own
  have each (t : CommonTable) (mem : t ∈ w.tables) : Parts d k (.commonTable t) :=
    h.part (mem_each mem)
  have queryMem (t : CommonTable) : ("query", Node.query t.query) ∈ (Node.commonTable t).children :=
    List.mem_cons_of_mem _ List.mem_cons_self
  obtain ⟨first, others, tables⟩ := List.exists_cons_of_ne_nil nonempty
  obtain ⟨j, rfl⟩ := (each first (by simp [tables])).succ (queryMem first) (Nat.le_succ 1)
  exact ⟨nonempty, levelAt j, rfl, fun t mem =>
    ⟨((each t mem).part List.mem_cons_self).own,
      (each t mem).nested rfl (queryMem t) (Nat.le_refl 2) rfl⟩⟩

theorem select {s : Select} (h : Parts d k (.query (.simple s))) :
    SelectReads d (scopeAt k) s ∧ ∀ w ∈ s.commonTables, WithReads d (scopeAt k) w := by
  obtain ⟨condition, groupBy, having, windows, ordered⟩ := h.own
  have parts : ∀ c ∈ s.children, Parts d k c.2 := fun c mem => h.part mem
  simp only [Select.children, List.forall_mem_append, List.forall_mem_cons, forall_maybe,
    List.not_mem_nil, false_implies, implies_true, and_true] at parts
  obtain ⟨⟨⟨⟨⟨⟨⟨⟨⟨⟨tables, clause⟩, source⟩, filter⟩, groups⟩, group⟩, window⟩, order⟩, limit⟩,
    fetch⟩, _⟩ := parts
  obtain ⟨items, distinct⟩ := clause.items
  refine ⟨⟨?_, ?_, fun f mem => (source f mem).fromClause, fun e mem => ?_, fun es mem => ?_,
    fun e mem => ?_, fun ws mem => (window ws mem).windows ?_, ordered, fun is mem => ?_,
    fun l mem => (limit l mem).limit.1, fun l mem => ?_, fun l mem => ?_, fun f mem => ?_⟩,
    fun w mem => (tables w mem).tables⟩
  all_goals try rw [scopeAt_here]
  · exact items
  · exact distinct
  · exact ((filter e mem).here List.mem_cons_self rfl (condition e mem) (Nat.le_refl 1)).1
  · obtain ⟨nonempty, areValues⟩ := groupBy es mem
    exact ⟨nonempty, fun e one =>
      ((groups es mem).here (mem_each one) rfl (areValues e one) (Nat.le_refl 1)).1⟩
  · exact ((group e mem).here List.mem_cons_self rfl (having e mem) (Nat.le_refl 1)).1
  · rintro rfl
    exact windows mem
  · exact (order is mem).orderItems
  · exact (limit l mem).limit.2.1
  · exact (limit l mem).limit.2.2
  · exact (fetch f mem).fetch

theorem rows {rows : List (List Expr)} (h : Parts d k (.query (.values rows))) :
    rows ≠ [] ∧ ∀ row ∈ rows, row ≠ [] ∧ ∀ e ∈ row, (levelAt k).ReadsValue d e := by
  obtain ⟨nonempty, each⟩ := h.own
  refine ⟨nonempty, fun row mem => ⟨(each row mem).1, fun e one => ?_⟩⟩
  have tuple : Parts d k (.expr (.tuple row)) := h.part (mem_each mem)
  exact (tuple.tuple (each row mem).2 e one).1

/-- A term of a query, which is no set operation. -/
theorem term {q : Query} (h : Parts d k (.query q)) (isTerm : q.IsTerm) :
    TermReads d (scopeAt k) q := by
  cases q with
  | simple s => exact .simple h.select.1
  | values rows =>
    obtain ⟨nonempty, each⟩ := h.rows
    rw [← scopeAt_here] at each
    exact .values nonempty each
  | binary left operator right => exact isTerm.elim

end Parts

variable {d : Dialect} {k : Nat}

/-- Every query is read back once what it holds is. -/
theorem query_chain {q : Query} (h : Parts d k (.query q)) : ReadsChain d (scopeAt k) q := by
  cases q with
  | simple s => exact simple_chain h.select.1 h.select.2
  | values rows =>
    obtain ⟨nonempty, each⟩ := h.rows
    rw [← scopeAt_here] at each
    exact values_chain nonempty each
  | binary left operator right =>
    obtain ⟨known, isTerm⟩ := h.own
    have leftReads : ReadsChain d (scopeAt k) left :=
      h.reads List.mem_cons_self rfl (Nat.le_add_left _ _)
    have rightParts : Parts d k (.query right) :=
      h.part (List.mem_cons_of_mem _ (List.mem_cons_of_mem _ List.mem_cons_self))
    exact binary_chain leftReads known (rightParts.term isTerm) isTerm

/-- Every well-formed node is read back with the levels that it takes. -/
theorem node_reads {n : Node} (h : n.WellFormed) (enough : n.span ≤ k) : Reads d k n := by
  induction measured : n.measure using Nat.strongRecOn generalizing n k with
  | ind size ih =>
    have known : ∀ m, n.Below m → ∀ j, m.span ≤ j → Reads d j m := fun m below j enough =>
      ih _ (measured ▸ Node.measure_lt below) (h.below below) enough rfl
    cases n with
    | expr e =>
      intro isValue
      cases tuple : (Node.expr e).isTuple with
      | false => exact expr_reads ⟨Nat.le_of_add_right_le enough, known, h⟩ tuple isValue
      | true =>
        cases e with
        | tuple es =>
          obtain ⟨j, rfl⟩ : ∃ j, k = j + 1 :=
            Nat.exists_eq_add_of_le' (Nat.le_trans (Nat.le_add_left 1 _) enough)
          exact tuple_reads ⟨Nat.le_of_succ_le_succ enough, known, h⟩ isValue
        | _ => cases tuple
    | query q => exact query_chain ⟨Nat.le_of_add_right_le enough, known, h⟩
    | _ => trivial

/-- A well-formed query is the only statement that its tokens are, with the levels that it takes. -/
theorem statement_reads {q : Query} (h : (Node.query q).WellFormed)
    (enough : (Node.query q).levels + 1 ≤ k) : (statementAt k).Gives (q.tokens d) q [] := by
  obtain ⟨j, rfl⟩ := Nat.exists_eq_add_of_le' (Nat.le_of_add_left_le enough)
  have chain : ReadsChain d (scopeAt j) q := node_reads h (Nat.le_of_succ_le_succ enough)
  have read := chain.query [] (by simp [EndsQuery, HeadIn])
  rw [List.append_nil] at read
  exact read.bind rfl

end Grammar

end SqlQuery
