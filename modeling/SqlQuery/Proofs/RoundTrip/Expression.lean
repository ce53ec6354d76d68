import SqlQuery.Proofs.Parsed.Grouping
import SqlQuery.Proofs.RoundTrip.Tree
import SqlQuery.Proofs.RoundTrip.Word

/-!
Operators without parentheses around their operands: an expression that is grouped as the powers of
its operators say is written and read back as itself.
-/

namespace SqlQuery

open Node Child

/-- Digits, with a minus in front or without. -/
def IsDecimal (text : String) : Prop :=
  ∃ digits : List Char, digits ≠ [] ∧ (∀ c ∈ digits, c.isDigit = true) ∧
    (text.toList = digits ∨ text.toList = '-' :: digits)

/-- In a string an odd number of backslashes stands neither before a quote nor at the end. -/
def Literal.IsSimple : Literal → Prop
  | .number text => IsDecimal text
  | .string value => isClosedBody value.toList = true
  | _ => True

namespace Expr

/-- A `not` reaches as far to the right as the expression does. -/
def endsNegated : Expr → Bool
  | .unary operator operand => operator == "not" || operand.endsNegated
  | .binary _ _ right => right.endsNegated
  | .between _ _ upper _ => upper.endsNegated
  | _ => false

/--
Expressions of operators, whose operands need no parentheses beyond those that are there: what stands
to the right of an operator binds more tightly than it, what stands to the left at least as tightly,
and a `not` at the end of what stands to the left is ended by nothing but `and` and `or`.
-/
inductive IsWellGrouped : Expr → Prop where
  | literal {value : Literal} (simple : value.IsSimple) : IsWellGrouped (.literal value)
  | column {ref : ColumnRef} (names : ∀ name ∈ ref.column :: ref.namespaces, IsName name) :
      IsWellGrouped (.column ref)
  | parameter {name : String} (nonempty : name ≠ "")
      (chars : ∀ c ∈ name.toList, Text.isDelimiter c = false) : IsWellGrouped (.parameter name)
  | paren {inner : Expr} (h : inner.IsWellGrouped) : IsWellGrouped (.paren inner)
  | cast {input : Expr} {name : String} (h : input.IsWellGrouped) (type : IsFreeWord name) :
      IsWellGrouped (.cast input ⟨name, none⟩)
  | sign {operator : String} {operand : Expr} (mem : operator ∈ Power.signs)
      (h : operand.IsWellGrouped) (plain : operand.isOperation = false) :
      IsWellGrouped (.unary operator operand)
  | not {operand : Expr} (h : operand.IsWellGrouped) (plain : operand.isConnective = false) :
      IsWellGrouped (.unary "not" operand)
  | between {operand lower upper : Expr} {negated : Bool} (first : operand.IsWellGrouped)
      (second : lower.IsWellGrouped) (third : upper.IsWellGrouped)
      (binds : operand.BindsFrom Power.between) (ends : operand.endsNegated = false)
      (lowerBinds : lower.BindsFrom (Power.between + 1))
      (upperBinds : upper.BindsFrom (Power.between + 1)) :
      IsWellGrouped (.between operand lower upper negated)
  | binary {left right : Expr} {operator : String} {power : Nat} (first : left.IsWellGrouped)
      (second : right.IsWellGrouped) (found : Power.infix? operator = some power)
      (plain : operator ∉ Power.special) (single : Power.isMembership operator = false)
      (leftBinds : left.BindsFrom power) (rightBinds : right.BindsFrom (power + 1))
      (ends : left.endsNegated = true → operator = "and" ∨ operator = "or") :
      IsWellGrouped (.binary left operator right)

/-- No minus or plus touches a number without a sign, and no `not` follows `is`: together they would
be read as a number with a sign, and as `is not`. -/
def StandsApart : Expr → Prop
  | .paren inner => inner.StandsApart
  | .cast input _ => input.StandsApart
  | .unary operator operand =>
    operand.StandsApart ∧ (operator ∈ ["-", "+"] → operand.leadsUnsigned = false)
  | .between operand lower upper _ =>
    operand.StandsApart ∧ lower.StandsApart ∧ upper.StandsApart
  | .binary left operator right =>
    left.StandsApart ∧ right.StandsApart ∧ (operator = "is" → right.leadsNot = false)
  | _ => True

/-- No sign stands before a number at the beginning either. -/
theorem StandsApart.sign : {e : Expr} → e.StandsApart → e.leadsLooseSign = false
  | .unary operator operand, apart => by
    simp only [leadsLooseSign, first, Bool.and_eq_false_imp, List.contains_iff_mem]
    exact apart.2
  | .binary left _ _, apart => apart.1.sign
  | .between operand _ _ _, apart => apart.1.sign
  | .cast input ref, apart => by
    have inner := StandsApart.sign (e := input) apart
    by_cases primary : input.isPrimary = true
    · simpa [leadsLooseSign, first, primary] using inner
    · simp [leadsLooseSign, first, primary]
  | .literal _, _ | .raw _, _ | .column _, _ | .function _, _ | .parameter _, _ | .array _, _
  | .tuple _, _ | .list _, _ | .case _ _, _ | .paren _, _ | .type _, _ | .specifiedString _ _, _
  | .inlineQuery _, _ => rfl

namespace IsWellGrouped

variable {e : Expr}

theorem isValue (h : e.IsWellGrouped) : e.isValue := by
  cases h with
  | sign mem =>
    have other : ∀ operator ∈ Power.signs, (operator != "distinct") = true := by decide
    exact other _ mem
  | binary _ _ found =>
    have other : ∀ entry ∈ Power.keywords ++ Power.symbols, (entry.1 != "from") = true := by decide
    exact other _ (Power.infix?_mem found)
  | _ => rfl

theorem leadsStar (h : e.IsWellGrouped) : e.leadsStar = false := by
  induction h with
  | column names =>
    rename_i ref
    have other : ref.column ≠ wildcardName := names _ List.mem_cons_self
    simp only [Expr.leadsStar, first, beq_eq_false_iff_ne]
    rintro rfl
    exact other rfl
  | cast h type ih =>
    rename_i input name
    by_cases primary : input.isPrimary = true
    · simpa [Expr.leadsStar, first, primary] using ih
    · simp [Expr.leadsStar, first, primary]
  | between _ _ _ _ _ _ _ ih => exact ih
  | binary _ _ _ _ _ _ _ _ ih => exact ih
  | _ => rfl

theorem infix_small {operator : String} {power : Nat} (found : Power.infix? operator = some power)
    (plain : operator ∉ Power.special) : 0 < power ∧ power < 17 := by
  have all : ∀ entry ∈ Power.keywords ++ Power.symbols, entry.1 ∉ Power.special →
      0 < entry.2 ∧ entry.2 < 17 := by decide
  exact all _ (Power.infix?_mem found) plain

theorem bindsFrom_mono {power least : Nat} (h : e.BindsFrom power) (le : least ≤ power) :
    e.BindsFrom least := by
  cases e with
  | binary left operator right =>
    obtain ⟨own, found, reaches⟩ := h
    exact ⟨own, found, Nat.le_trans le reaches⟩
  | between operand lower upper negated => exact Nat.le_trans le h
  | _ => trivial

theorem bindsFrom_of_not {power : Nat} (plain : e.isOperation = false) : e.BindsFrom power := by
  cases e <;> trivial

theorem not_isOperation_of_isPrimary (h : e.isPrimary = true) : e.isOperation = false := by
  cases e <;> trivial

/-- The operators on the left side have the power that the one at the root has, or more. -/
theorem le_spine (h : e.IsWellGrouped) {power : Nat} (binds : e.BindsFrom power)
    (small : power ≤ Power.cast) : power ≤ e.spine := by
  have most : Power.cast ≤ Power.unbounded := by decide
  induction h generalizing power with
  | cast _ _ ih =>
    rename_i input name _ _
    rw [spine]
    split
    · rename_i primary
      have inner := ih (bindsFrom_of_not (not_isOperation_of_isPrimary primary)) small
      omega
    · omega
  | between _ _ _ leftBinds _ _ _ ih =>
    have root : power ≤ Power.between := binds
    have left := ih (bindsFrom_mono leftBinds root) small
    rw [spine]
    omega
  | binary _ _ found _ _ leftBinds _ _ ih =>
    obtain ⟨own, known, reaches⟩ := binds
    obtain rfl := Option.some.inj (found.symm.trans known)
    have left := ih (bindsFrom_mono leftBinds reaches) small
    rw [spine, Power.infixPower, found, Option.getD_some]
    omega
  | _ => exact Nat.le_trans small most

theorem five_le {power : Nat} {operand : Expr} (h : operand.IsWellGrouped)
    (plain : operand.isConnective = false) (small : power ≤ 5) : operand.BindsFrom power := by
  have all : ∀ entry ∈ Power.keywords ++ Power.symbols, entry.1 = "and" ∨ entry.1 = "or" ∨
      5 ≤ entry.2 := by decide
  cases h with
  | binary _ _ found =>
    rename_i left right operator own _ _ _ _ _ _ _
    simp only [isConnective, Bool.or_eq_false_iff, beq_eq_false_iff_ne] at plain
    rcases all _ (Power.infix?_mem found) with isAnd | isOr | large
    · exact absurd isAnd plain.1
    · exact absurd isOr plain.2
    · exact ⟨own, found, Nat.le_trans small large⟩
  | between => exact Nat.le_trans small (by decide)
  | _ => trivial

/-- An operator of a lower power after the expression does not go to an operand at its end, unless a
`not` there takes it. -/
theorem lt_edge (h : e.IsWellGrouped) {power : Nat} (binds : e.BindsFrom power) (small : power < 17)
    (ends : e.endsNegated = true → power < 5) : power < e.edge := by
  have most : 17 ≤ Power.unbounded := by decide
  induction h with
  | sign mem _ plain ih =>
    have found : ∀ operator ∈ Power.signs, Power.prefix? operator = some 17 := by decide
    rename_i operator operand _
    have inner := ih (bindsFrom_of_not plain) fun negated => ends (by simp [endsNegated, negated])
    simp only [edge, found operator mem]
    omega
  | not h plain ih =>
    have found : Power.prefix? "not" = some 5 := by decide
    have loose : power < 5 := ends (by simp [endsNegated])
    have inner := ih (five_le h plain (by omega)) fun _ => loose
    simp only [edge, found]
    omega
  | between _ _ _ _ _ _ upperBinds _ _ ih =>
    have root : power ≤ Power.between := binds
    have inner := ih (bindsFrom_mono upperBinds (by omega)) ends
    rw [edge]
    omega
  | binary _ _ found _ single _ rightBinds _ _ ih =>
    obtain ⟨own, known, reaches⟩ := binds
    obtain rfl := Option.some.inj (found.symm.trans known)
    have inner := ih (bindsFrom_mono rightBinds (by omega)) ends
    rw [edge, single, Bool.false_and, if_neg Bool.false_ne_true, Power.infixPower, found,
      Option.getD_some]
    omega
  | _ => exact Nat.lt_of_lt_of_le small most

theorem fits (h : e.IsWellGrouped) : e.Fits := by
  have edge {left : Expr} (h : left.IsWellGrouped) {power : Nat} (binds : left.BindsFrom power)
      (small : power < 17) (ends : left.endsNegated = true → power < 5) : power < left.edge :=
    h.lt_edge binds small ends
  cases h with
  | literal simple =>
    rename_i value
    cases value with
    | number text =>
      obtain ⟨digits, nonempty, all, split⟩ := simple
      obtain ⟨c, rest, rfl⟩ := List.exists_cons_of_ne_nil nonempty
      have digit : c ≠ '\x27' := ne_of_digit (all c List.mem_cons_self) (by decide)
      change isQuoted text = false
      rcases split with chars | chars <;> simp [isQuoted, chars, digit]
    | string text => exact unquote_spellString simple
    | _ => trivial
  | column names => exact fun name mem => names name (List.mem_cons_of_mem _ mem)
  | parameter => trivial
  | paren h => exact h.isValue
  | cast h => exact h.isValue
  | sign mem h plain =>
    have found : ∀ operator ∈ Power.signs, Power.prefix? operator = some 17 := by decide
    refine .inr ?_
    rw [IsOperand, found _ mem]
    exact ⟨h.isValue, h.le_spine (bindsFrom_of_not plain) (by decide)⟩
  | not h plain =>
    refine .inr ?_
    rw [IsOperand, show Power.prefix? "not" = some 5 by decide]
    exact ⟨h.isValue, h.le_spine (five_le h plain (by decide)) (by decide)⟩
  | between first second third binds ends lowerBinds upperBinds =>
    refine ⟨⟨first.isValue, edge first binds (by decide) fun negated => ?_⟩,
      ⟨second.isValue, second.le_spine lowerBinds (by decide),
        edge second (bindsFrom_mono lowerBinds (by decide)) (by decide) fun _ => by decide⟩,
      third.isValue, third.le_spine upperBinds (by decide)⟩
    rw [ends] at negated
    cases negated
  | binary first second found plain single leftBinds rightBinds ends =>
    rename_i left right operator power
    obtain ⟨_, small⟩ := infix_small found plain
    refine .inr ⟨power, found, plain, first.isValue, edge first leftBinds small fun negated => ?_,
      .inr ⟨second.isValue, second.le_spine rightBinds (Nat.le_trans small (by decide)), ?_⟩⟩
    · rcases ends negated with rfl | rfl
      · have and : Power.infix? "and" = some 3 := by decide
        have := Option.some.inj (and.symm.trans found)
        omega
      · have or : Power.infix? "or" = some 1 := by decide
        have := Option.some.inj (or.symm.trans found)
        omega
    · intro member
      rw [single] at member
      cases member

variable {d : Dialect}

theorem legible_alone (h : e.IsWellGrouped) (apart : e.StandsApart) : e.Legible d := by
  cases h with
  | literal simple =>
    rename_i value
    cases value with
    | number text =>
      obtain ⟨digits, nonempty, all, chars | chars⟩ := simple
      · have number := isNumberText_digits nonempty all
        exact .inl (by rwa [chars])
      · exact .inr ⟨digits, chars, isNumberText_digits nonempty all⟩
    | string text => exact simple
    | _ => trivial
  | parameter nonempty chars =>
    refine ⟨fun empty => nonempty (String.ext (by simpa using empty)), fun c mem => ?_⟩
    rw [Text.isWordChar, chars c mem]
    rfl
  | sign mem h => exact fun _ => h.leadsStar
  | not => exact fun mem => absurd mem (by decide)
  | binary first second =>
    refine ⟨?_, apart.2.2, fun _ => second.leadsStar⟩
    rintro field rfl
    cases first
  | cast _ type => exact fun _ _ => type.single
  | _ => trivial

theorem legible (h : e.IsWellGrouped) (apart : e.StandsApart) : (Node.expr e).Legible d := by
  refine ⟨h.legible_alone apart, ?_⟩
  cases h with
  | literal | parameter => simp [Node.awaited, Node.children, Expr.children]
  | column => simp [Node.awaited, Node.children, Expr.children, values_names, Child.value?]
  | paren => exact List.forall_mem_singleton.2 (StandsApart.sign apart)
  | cast =>
    have inner : StandsApart _ := apart
    simpa [Node.awaited, Node.children, Expr.children, Child.value?] using
      ⟨StandsApart.sign apart, rfl⟩
  | sign | not =>
    simpa [Node.awaited, Node.children, Expr.children, Child.value?] using ⟨rfl, apart.1.sign⟩
  | between => simpa [Node.awaited] using ⟨apart.2.1.sign, apart.2.2.sign⟩
  | binary => exact List.forall_mem_singleton.2 apart.2.1.sign

theorem sound_raw {text : String} (plain : IsPlain text) :
    ∀ m ∈ (Node.expr (.raw text)).walk, m.Fits ∧ m.Legible d :=
  forall_mem_walk_children.2 ⟨⟨plain, trivial, by simp [Node.awaited, Node.children, Expr.children]⟩,
    by simp [Node.children, Expr.children]⟩

theorem sound_identifier (name : String) :
    ∀ m ∈ (Node.identifier name).walk, m.Fits ∧ m.Legible d :=
  forall_mem_walk_children.2 ⟨⟨trivial, trivial, by simp [Node.awaited, Node.children]⟩,
    by simp [Node.children]⟩

theorem sound_type {name : String} (free : IsFreeWord name) :
    ∀ m ∈ (Node.expr (.type ⟨name, none⟩)).walk, m.Fits ∧ m.Legible d := by
  refine forall_mem_walk_children.2
    ⟨⟨⟨.inr ⟨free.isWord, free.lower⟩, nofun⟩, .inr free.isWordText, ?_⟩, ?_⟩
  · exact List.forall_mem_singleton.2 rfl
  simp only [Node.children, Expr.children, TypeRef.children, List.forall_mem_cons, forall_maybe,
    Option.not_mem_none, false_implies, implies_true, and_true]
  exact sound_raw free.isWord.1

theorem sound_of {apart : Prop} (h : e.IsWellGrouped) (own : apart → e.StandsApart)
    (below : ∀ c ∈ e.children, ∀ m ∈ c.2.walk, m.Fits ∧ (apart → m.Legible d)) :
    ∀ m ∈ (Node.expr e).walk, m.Fits ∧ (apart → m.Legible d) :=
  forall_mem_walk_children.2 ⟨⟨h.fits, fun known => h.legible (own known)⟩, below⟩

/-- Every node of such an expression is as the grammar gives it, and read as what it is. -/
theorem sound (h : e.IsWellGrouped) :
    ∀ m ∈ (Node.expr e).walk, m.Fits ∧ (e.StandsApart → m.Legible d) := by
  have leaf {n : Node} {apart : Prop} (h : ∀ m ∈ n.walk, m.Fits ∧ m.Legible d) :
      ∀ m ∈ n.walk, m.Fits ∧ (apart → m.Legible d) :=
    fun m mem => (h m mem).imp_right fun legible _ => legible
  have part {x : Expr} {apart : Prop} (weaker : apart → x.StandsApart)
      (ih : ∀ m ∈ (Node.expr x).walk, m.Fits ∧ (x.StandsApart → m.Legible d)) :
      ∀ m ∈ (Node.expr x).walk, m.Fits ∧ (apart → m.Legible d) :=
    fun m mem => (ih m mem).imp_right fun legible known => legible (weaker known)
  induction h with
  | literal simple => exact sound_of (.literal simple) id (by simp [Expr.children])
  | parameter nonempty chars =>
    exact sound_of (.parameter nonempty chars) id (by simp [Expr.children])
  | column names =>
    refine sound_of (.column names) id ?_
    simp only [Expr.children, List.forall_mem_append, forall_each, List.forall_mem_cons]
    exact ⟨fun _ _ => leaf (sound_identifier _), leaf (sound_identifier _), by simp⟩
  | paren h ih =>
    refine sound_of (.paren h) id ?_
    simp only [Expr.children, List.forall_mem_cons]
    exact ⟨ih, by simp⟩
  | cast h free ih =>
    refine sound_of (.cast h free) id ?_
    simp only [Expr.children, List.forall_mem_cons]
    exact ⟨ih, leaf (sound_type free), by simp⟩
  | sign mem h plain ih =>
    have text : ∀ operator ∈ Power.signs, isPlainText operator = true := by decide
    refine sound_of (.sign mem h plain) id ?_
    simp only [Expr.children, List.forall_mem_cons]
    exact ⟨leaf (sound_raw (isPlain_of (text _ mem))), part And.left ih, by simp⟩
  | not h plain ih =>
    have text : isPlainText "not" = true := by decide
    refine sound_of (.not h plain) id ?_
    simp only [Expr.children, List.forall_mem_cons]
    exact ⟨leaf (sound_raw (isPlain_of text)), part And.left ih, by simp⟩
  | between first second third binds ends lowerBinds upperBinds ihFirst ihSecond ihThird =>
    refine sound_of (.between first second third binds ends lowerBinds upperBinds) id ?_
    simp only [Expr.children, List.forall_mem_cons]
    exact ⟨part (·.1) ihFirst, part (·.2.1) ihSecond, part (·.2.2) ihThird, by simp⟩
  | binary first second found plain single leftBinds rightBinds ends ihFirst ihSecond =>
    refine sound_of (.binary first second found plain single leftBinds rightBinds ends) id ?_
    simp only [Expr.children, List.forall_mem_cons]
    exact ⟨part (·.1) ihFirst, leaf (sound_raw (infix_plain found)), part (·.2.1) ihSecond, by simp⟩

theorem wellFormed (h : e.IsWellGrouped) : (Node.expr e).WellFormed :=
  fun m mem => (h.sound (d := .standard) m mem).1

end IsWellGrouped

end Expr

/-- The query that selects just the value. -/
def Query.selecting (e : Expr) : Query :=
  .simple ⟨none, ⟨none, [⟨e, none⟩]⟩, none, none, none, none, none, none, none, none, none⟩

theorem forall_mem_walk_selecting {e : Expr} {P : Node → Prop} :
    (∀ m ∈ (Node.query (.selecting e)).walk, P m) ↔ P (.query (.selecting e)) ∧
      P (.select ⟨none, [⟨e, none⟩]⟩) ∧ P (.selectItem ⟨e, none⟩) ∧
        ∀ m ∈ (Node.expr e).walk, P m := by
  simp [forall_mem_walk_children (n := .query _), forall_mem_walk_children (n := .select _),
    forall_mem_walk_children (n := .selectItem _), Node.children, Query.children, Select.children,
    Query.selecting, maybe, each]

theorem below_selecting (e : Expr) : (Node.query (.selecting e)).Below (.expr e) := by
  have all := (forall_mem_walk_selecting (e := e)
    (P := (· ∈ (Node.query (.selecting e)).walk))).1 fun _ mem => mem
  rcases mem_walk.1 (all.2.2.2 _ (mem_walk.2 (.inl rfl))) with same | below
  · cases same
  · exact below

theorem marks_selecting (d : Dialect) (e : Expr) :
    (Query.selecting e).marks d = [Mark.plain "select"] ++ .blank :: e.marks d := by
  have alone : SelectItem.effectiveAlias ⟨e, none⟩ = none := rfl
  simp [Query.selecting, Query.marks, Select.marks, SelectClause.marks, itemsMarks,
    SelectItem.marks, alone, clauseMarks, spaced_cons_cons, withMarks, fromMarks, keywordedMarks,
    valuesMarks, windowsMarks, orderMarks, limitMarks, fetchMarks, lockMarks]

theorem text_selecting (d : Dialect) (e : Expr) :
    "select " ++ String.ofList (Mark.spellAll d (e.marks d)) =
      String.ofList (Mark.spellAll d ((Query.selecting e).marks d)) := by
  rw [marks_selecting, spellAll_append, spellAll_singleton, spellAll_cons, ← List.append_assoc,
    String.ofList_append]
  rfl

/--
An expression of operators without superfluous or missing parentheses is written, and `select` with
that text is read as the query that selects it, if no sign touches a number and no `not` follows `is`.
-/
theorem parse_wellGrouped {e : Expr} (grouped : e.IsWellGrouped) (apart : e.StandsApart) :
    ∃ bound, ∀ levels limit, bound ≤ levels → bound ≤ limit →
      ∃ text, (Node.expr e).write .standard levels = .ok text ∧
        Query.parse ("select " ++ text) limit = .ok (.selecting e) := by
  have wellFormed : (Node.query (.selecting e)).WellFormed := by
    refine forall_mem_walk_selecting.2 ⟨?_, ?_, ?_, grouped.wellFormed⟩
    · simp [Node.Fits, Query.Fits, Query.selecting]
    · simp [Node.Fits]
    · exact ⟨grouped.isValue, by simp, rfl⟩
  have legible : (Node.query (.selecting e)).IsLegible .standard := by
    refine forall_mem_walk_selecting.2 ⟨⟨trivial, ?_⟩, ⟨?_, ?_⟩, ⟨trivial, ?_⟩, fun m mem => ?_⟩
    · simp [Node.awaited, Node.children, Query.children, Select.children, Query.selecting,
        maybe, each, Child.value?]
    · simp [Node.LegibleAlone]
    · exact List.forall_mem_singleton.2 apart.sign
    · simp [Node.awaited]
    · exact (grouped.sound m mem).2 apart
  obtain ⟨bound, reads⟩ := Query.parse_write (d := .standard) wellFormed legible rfl
  have below := below_selecting e
  have small := measure_lt below
  refine ⟨max bound ((Node.query (.selecting e)).measure + 1), fun levels limit enough allowed => ?_⟩
  obtain ⟨text, written, parsed⟩ := reads levels limit (by omega) (by omega)
  refine ⟨_, write_eq (wellFormed.below below) (by omega), ?_⟩
  rw [write_eq wellFormed (by omega)] at written
  rw [← Except.ok.inj written, Node.marks, ← text_selecting] at parsed
  exact parsed

/-- `not "order" < -1`. -/
theorem parse_wellGrouped_quoted :
    ∃ bound, ∀ levels limit, bound ≤ levels → bound ≤ limit → ∃ text,
      (Node.expr (.unary "not" (.binary (.columnNamed "order") "<" (.number "-1")))).write .standard
          levels = .ok text ∧
        Query.parse ("select " ++ text) limit =
          .ok (.selecting (.unary "not" (.binary (.columnNamed "order") "<" (.number "-1")))) := by
  have column : (Expr.columnNamed "order").IsWellGrouped := .column (by simp [IsName, wildcardName])
  have number : (Expr.number "-1").IsWellGrouped := .literal ⟨['1'], by simp, by simp, .inr rfl⟩
  have less : Power.infix? "<" = some 7 := by decide
  have comparison : (Expr.binary (.columnNamed "order") "<" (.number "-1")).IsWellGrouped :=
    .binary column number less (by decide) (by decide) trivial trivial
      fun negated => absurd negated Bool.false_ne_true
  exact parse_wellGrouped (.not comparison rfl) ⟨⟨trivial, trivial, by decide⟩, by decide⟩

/-- A minus touches the number after it and is read as its sign. -/
theorem parse_minus_digits {digits : List Char} (nonempty : digits ≠ [])
    (all : ∀ c ∈ digits, c.isDigit = true) :
    ∃ bound, ∀ levels limit, bound ≤ levels → bound ≤ limit → ∃ text,
      (Node.expr (.unary "-" (.number (String.ofList digits)))).write .standard levels = .ok text ∧
        Query.parse ("select " ++ text) limit =
          .ok (.selecting (.number (String.ofList ('-' :: digits)))) := by
  have unsigned : (Expr.number (String.ofList digits)).IsWellGrouped :=
    .literal ⟨digits, nonempty, all, .inl String.toList_ofList⟩
  have signed : (Expr.number (String.ofList ('-' :: digits))).IsWellGrouped :=
    .literal ⟨digits, nonempty, all, .inr String.toList_ofList⟩
  have sign : (Expr.unary "-" (.number (String.ofList digits))).IsWellGrouped :=
    .sign (by decide) unsigned rfl
  have text (cs : List Char) : Mark.spellAll .standard
      ((Expr.number (String.ofList cs)).marks .standard) = cs := by
    simp [Expr.number, Expr.marks, Mark.spellAll, Mark.spell, Literal.spell]
  have same : Mark.spellAll .standard
      ((Expr.unary "-" (.number (String.ofList digits))).marks .standard) = '-' :: digits := by
    have plain : beginsSigned digits = false := by
      obtain ⟨c, rest, rfl⟩ := List.exists_cons_of_ne_nil nonempty
      have minus : c ≠ '-' := ne_of_digit (all c List.mem_cons_self) (by decide)
      have plus : c ≠ '+' := ne_of_digit (all c List.mem_cons_self) (by decide)
      simp [beginsSigned, minus, plus]
    rw [Expr.marks_sign (by decide), text, plain, if_neg Bool.false_ne_true, spellAll_cons, text]
    rfl
  obtain ⟨bound, reads⟩ := parse_wellGrouped signed trivial
  refine ⟨max bound ((Node.expr (.unary "-" (.number (String.ofList digits)))).measure + 1),
    fun levels limit enough allowed => ?_⟩
  refine ⟨String.ofList ('-' :: digits), ?_, ?_⟩
  · rw [write_eq sign.wellFormed (by omega)]
    exact congrArg (fun cs => Except.ok (String.ofList cs)) same
  · let levels := max bound ((Node.expr (.number (String.ofList ('-' :: digits)))).measure + 1)
    obtain ⟨_, written, parsed⟩ := reads levels limit (by omega) (by omega)
    rw [write_eq signed.wellFormed (by omega), Node.marks, text] at written
    rw [← Except.ok.inj written] at parsed
    exact parsed

end SqlQuery
