import SqlQuery.Grammar.Expression
import SqlQuery.Proofs.Casing.Text
import SqlQuery.Proofs.Parsed.Node
import SqlQuery.Proofs.Rule.Gets

/-!
Values as the grammar gives them, and the rules for what stands in parentheses and for types. A value
that is read from a power up stops in front of an operator that none of its operands could take in.
-/

namespace SqlQuery

variable {T : Token → Prop}

namespace Expr

/-- A value as the grammar gives it. -/
structure IsParsed (T : Token → Prop) (e : Expr) : Prop where
  isValue : e.isValue = true
  all : (Node.expr e).AllParsed T

/-- The operator at the root, if there is one, binds at least so tightly. -/
def BindsFrom (power : Nat) : Expr → Prop
  | .binary _ operator _ => ∃ own, Power.infix? operator = some own ∧ power ≤ own
  | .between _ _ _ _ => power ≤ Power.between
  | _ => True

/-- A value whose operators have at least the power of the floor, and which no operator that comes
next could be taken into. -/
structure Grown (T : Token → Prop) (floor : Nat) (e : Expr) (rest : List Token) : Prop
    extends IsParsed T e where
  binds : e.BindsFrom floor
  spine : min floor Power.cast ≤ e.spine
  stops : ∀ t ∈ rest.head?, ∀ power, Power.binary? t = some power → power < e.edge

/-- All of a value: the operator that comes next does not reach the floor. -/
structure ReadFrom (T : Token → Prop) (floor : Nat) (e : Expr) (rest : List Token) : Prop
    extends Grown T floor e rest where
  ended : ∀ t ∈ rest.head?, ∀ power, Power.binary? t = some power → power < floor

/-- An operand without operators around it. -/
structure IsClosed (T : Token → Prop) (e : Expr) : Prop extends IsParsed T e where
  binds : ∀ power, e.BindsFrom power
  spine : Power.cast ≤ e.spine
  edge : e.edge = Power.unbounded

theorem cast_le_spine (e : Expr) (primary : e.isPrimary = true) : Power.cast ≤ e.spine := by
  match e with
  | .cast input ref =>
    rw [spine]
    split
    · rename_i inner
      exact Nat.le_min.2 ⟨Nat.le_refl _, cast_le_spine input inner⟩
    · decide
  | .literal _ | .column _ | .function _ | .parameter _ | .array _ | .tuple _ | .case _ _
  | .paren _ | .specifiedString _ _ | .inlineQuery _ => exact Nat.le_succ 19

theorem IsClosed.of_primary {e : Expr} (h : e.IsParsed T) (primary : e.isPrimary = true) :
    e.IsClosed T where
  toIsParsed := h
  binds := fun _ => by cases e <;> trivial
  spine := cast_le_spine e primary
  edge := by cases e <;> first | rfl | cases primary

end Expr

structure Level.Sound (T : Token → Prop) (level : Level) : Prop where
  expr : ∀ floor, Rule.Gets T (fun _ => True) (level.expr floor) (Expr.ReadFrom T floor)
  query : Rule.Makes T level.query fun q => (Node.query q).AllParsed T

structure Scope.Sound (T : Token → Prop) (scope : Scope) : Prop where
  here : scope.here.Sound T
  inside : ∀ level, scope.inside = some level → level.Sound T

theorem Level.Sound.value {level : Level} (h : level.Sound T) (floor : Nat) :
    Rule.Makes T (level.expr floor) (Expr.IsParsed T) :=
  Rule.Makes.of_gets (h.expr floor) fun _ _ read => read.toIsParsed

theorem Scope.Sound.enter {α : Type} {scope : Scope} {rule : Level → Rule α} {Q : α → Prop}
    (h : scope.Sound T) (makes : ∀ level, level.Sound T → Rule.Makes T (rule level) Q) :
    Rule.Makes T (scope.enter rule) Q :=
  Rule.Makes.enter fun level inside => makes level (h.inside level inside)

namespace Grammar

open Rule

variable {level : Level} {scope : Scope}

theorem areValues {es : List Expr} (h : es ≠ [] ∧ ∀ e ∈ es, e.IsParsed T) : AreValues es :=
  ⟨h.1, fun e mem => (h.2 e mem).isValue⟩

/-- The values of a list stand below the node that holds it. -/
theorem each_parsed {role : String} {es : List Expr} (h : ∀ e ∈ es, e.IsParsed T) :
    ∀ c ∈ Child.each role Node.expr es, c.2.AllParsed T :=
  Child.forall_each.2 fun e mem => (h e mem).all

theorem values_sound (h : level.Sound T) :
    Makes T (values level) fun es => es ≠ [] ∧ ∀ e ∈ es, e.IsParsed T :=
  (h.value 0).commaList

theorem valuesBefore_sound (h : level.Sound T) (close : Kind) :
    Makes T (valuesBefore close level) fun es => ∀ e ∈ es, e.IsParsed T :=
  (Makes.look _ _).pass fun _ =>
    Makes.ite (fun _ => Makes.ret nofun) fun _ => (values_sound h).post fun _ => And.right

theorem list_allParsed {es : List Expr} (h : ∀ e ∈ es, e.IsParsed T) :
    (Node.expr (.list es)).AllParsed T :=
  .of_children trivial (each_parsed h)

theorem argumentValues_sound (h : level.Sound T) : Makes T (argumentValues level) fun e =>
    e.IsListing ∧ (Node.expr e).AllParsed T := by
  refine (values_sound h).bind fun es parsed => ?_
  split
  · rename_i e
    have isParsed := parsed.2 e List.mem_cons_self
    refine Makes.ret ⟨?_, isParsed.all⟩
    have isValue := isParsed.isValue
    cases e <;> first | exact isValue | cases isValue
  · rename_i several
    refine Makes.ret ⟨⟨?_, areValues parsed⟩, list_allParsed parsed.2⟩
    match es, parsed.1, several with
    | [e], _, several => exact absurd rfl (several e)
    | _ :: _ :: _, _, _ => simp

theorem nestedQuery_sound (h : level.Sound T) :
    Makes T (nestedQuery level) fun q => (Node.query q).AllParsed T :=
  h.query.bind fun _ parsed => (Makes.require _ _).pass fun _ => Makes.ret parsed

theorem inlineQuery_closed {q : Query} (h : (Node.query q).AllParsed T) :
    (Expr.inlineQuery q).IsClosed T :=
  .of_primary ⟨rfl, .of_children trivial (by simpa [Node.children, Expr.children] using h)⟩ rfl

theorem parenthesizedQuery_sound (h : scope.Sound T) :
    Makes T (parenthesizedQuery scope) fun e => e.IsClosed T ∧ ∃ q, e = .inlineQuery q :=
  (Makes.require _ _).pass fun _ => Makes.map <|
    (h.enter fun _ => nestedQuery_sound).post fun q parsed => ⟨inlineQuery_closed parsed, q, rfl⟩

theorem parenthesized_sound (h : scope.Sound T) : Makes T (parenthesized scope) (Expr.IsClosed T) := by
  refine (Makes.look _ _).pass fun _ => Makes.ite (fun _ => ?_) fun _ => ?_
  · exact (parenthesizedQuery_sound h).post fun _ => And.left
  refine Makes.skip.pass fun _ => ?_
  refine (h.enter fun level sound => (values_sound sound).bind fun es parsed =>
    (Makes.require _ _).pass fun _ => Makes.ret parsed).bind fun es parsed => ?_
  split
  · rename_i e
    have isParsed := parsed.2 e List.mem_cons_self
    have below : ∀ c ∈ (Node.expr (.paren e)).children, c.2.AllParsed T := by
      simpa [Node.children, Expr.children] using isParsed.all
    exact Makes.ret (.of_primary ⟨rfl, .of_children isParsed.isValue below⟩ rfl)
  · rename_i several
    have long : 2 ≤ es.length := by
      rcases es with _ | ⟨e, _ | ⟨f, others⟩⟩
      · exact absurd rfl parsed.1
      · exact absurd rfl (several e)
      · simp
    have isParsed : (Expr.tuple es).IsParsed T :=
      ⟨by simpa [Expr.isValue] using long,
        .of_children (areValues parsed).2 (each_parsed parsed.2)⟩
    exact Makes.ret (.of_primary isParsed rfl)

/-- What `in` reads in parentheses is a tuple, and without them a value like any other. -/
theorem membership_sound (h : scope.Sound T) (power : Nat) :
    Gets T (fun _ => True) (membership scope power) fun e rest =>
      (e.isTuple ∧ (Node.expr e).AllParsed T) ∨ e.ReadFrom T power rest := by
  refine (Gets.look _ _).bind fun opens => Gets.bind ((Gets.look _ _)) fun query => ?_
  refine Gets.ite (fun _ => ?_) fun _ => ?_
  · exact (h.here.expr power).weaken (fun _ _ => trivial) fun _ _ => .inr
  refine (Makes.anywhere (Q := fun e => e.isTuple ∧ (Node.expr e).AllParsed T) ?_).post
    fun _ _ => .inl
  refine Makes.skip.pass fun _ => Makes.map (h.enter fun level sound => ?_)
  refine (valuesBefore_sound sound _).bind fun es parsed => (Makes.require _ _).pass fun _ => ?_
  exact Makes.ret ⟨rfl, .of_children (fun e mem => (parsed e mem).isValue) (each_parsed parsed)⟩

theorem timeZone_sound : Makes T timeZone fun suffix =>
    suffix ∈ ["", " with time zone", " without time zone"] := by
  refine (Makes.look _ _).pass fun _ => (Makes.look _ _).pass fun _ => ?_
  refine Makes.ite (fun _ => ?_) fun _ => Makes.ret (by decide)
  refine (Makes.eat _).pass fun _ => Makes.ite (fun _ => ?_) fun _ => ?_
  · exact Makes.skip.pass fun _ => Makes.skip.pass fun _ => Makes.ret (by decide)
  refine (Makes.eat _).pass fun _ => Makes.ite (fun _ => ?_) fun _ => Makes.ret (by decide)
  exact Makes.skip.pass fun _ => Makes.skip.pass fun _ => Makes.ret (by decide)

/-- Further words make the name of a type a longer one that is known. -/
theorem typeSuffix_sound (name : String) : Makes T (typeSuffix name) fun suffix =>
    suffix = "" ∨ name ++ suffix ∈ longTypes := by
  have one (word suffix : String) (long : name ++ suffix ∈ longTypes) : Makes T (do
      if ← eatWord word then return suffix else return "" : Rule String) fun suffix =>
        suffix = "" ∨ name ++ suffix ∈ longTypes :=
    (Makes.eat _).pass fun _ =>
      Makes.ite (fun _ => Makes.ret (.inr long)) fun _ => Makes.ret (.inl rfl)
  refine Makes.ite (fun double => one _ _ ?_) fun _ => ?_
  · rw [beq_iff_eq.1 double]
    decide
  refine Makes.ite (fun varying => one _ _ ?_) fun _ => ?_
  · simp only [Bool.or_eq_true, beq_iff_eq] at varying
    rcases varying with (rfl | rfl) | rfl <;> decide
  refine Makes.ite (fun timed => timeZone_sound.post fun suffix mem => ?_) fun _ => Makes.ret (.inl rfl)
  simp only [Bool.or_eq_true, beq_iff_eq] at timed
  simp only [List.mem_cons, List.not_mem_nil, or_false] at mem
  rcases mem with rfl | rfl | rfl
  · exact .inl rfl
  all_goals rcases timed with rfl | rfl <;> exact .inr (by decide)

theorem isLower_lower (text : String) : IsLower (Text.lower text) := by
  exact Text.lower_lower text

theorem typeRef_sound (h : level.Sound T) :
    Makes T (typeRef level) fun ref => (Node.expr (.type ref)).AllParsed T := by
  refine (Makes.expect.post (W := IsLower) ?_).bind fun name lower => ?_
  · rintro name ⟨t, _, found⟩
    split at found
    · exact Option.some.inj found ▸ isLower_lower t.text
    · cases found
  refine (typeSuffix_sound name).bind fun suffix long => ?_
  refine (Makes.after (Makes.eat _) (Q := fun e => (∃ es, e = .list es ∧ AreValues es) ∧
    (Node.expr e).AllParsed T) ?_).bind fun argument parsed => Makes.ret ?_
  · refine (values_sound h).bind fun es parsed => (Makes.require _ _).pass fun _ => ?_
    exact Makes.ret ⟨⟨es, rfl, areValues parsed⟩, list_allParsed parsed.2⟩
  refine .of_children ⟨?_, fun e mem => (parsed e mem).1⟩ ?_
  · rcases long with rfl | long
    · simpa using Or.inr lower
    · exact .inl long
  · simp only [Node.children, Expr.children, TypeRef.children, List.forall_mem_cons,
      Node.allParsed_raw, true_and]
    exact Child.forall_maybe.2 fun e mem => (parsed e mem).2

end Grammar

end SqlQuery
