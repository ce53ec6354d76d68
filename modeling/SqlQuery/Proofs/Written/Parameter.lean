import SqlQuery.Proofs.Written.Shown
import SqlQuery.Proofs.Written.Step

/-!
The parameters of a node are written in the order in which a walk meets them, each once. Where only
they are marked with a question mark, what is written can be split into them.
-/

namespace SqlQuery

open Mark

variable {d : Dialect}

namespace Text

theorem mem_of_mem_doubled {mark c : Char} {cs : List Char} (mem : c ∈ doubled mark cs) : c ∈ cs := by
  obtain ⟨e, inside, here⟩ := List.mem_flatMap.1 mem
  have same : c = e := by
    split at here <;> simpa using here
  exact same ▸ inside

theorem mem_of_mem_doubledMark {mark : List Char} {c : Char} {cs : List Char}
    (mem : c ∈ doubledMark mark cs) : c ∈ cs ∨ c ∈ mark := by
  induction cs using doubledMark.induct mark with
  | case1 => simp [doubledMark] at mem
  | case2 e rest found ih =>
    rw [doubledMark, if_pos found] at mem
    simp only [List.mem_append] at mem
    rcases mem with (mem | mem) | mem
    · exact .inr mem
    · exact .inr mem
    · exact (ih mem).imp_left List.mem_of_mem_drop
  | case3 e rest found ih =>
    rw [doubledMark, if_neg found, List.mem_cons] at mem
    rcases mem with rfl | mem
    · exact .inl List.mem_cons_self
    · exact (ih mem).imp_left (List.mem_cons_of_mem e)

end Text

theorem Literal.isClear_spell {value : Literal} (clear : ∀ text ∈ value.texts, '?' ∉ text.toList) :
    '?' ∉ value.spell := by
  cases value with
  | number text => exact clear text List.mem_cons_self
  | string text =>
    have own := clear text List.mem_cons_self
    simp only [Literal.spell, spellString, List.mem_append, List.mem_cons, not_or]
    exact ⟨⟨by decide, fun mem => own (Text.mem_of_mem_doubled mem)⟩, by decide⟩
  | boolean value => cases value <;> decide +kernel
  | null => decide +kernel

/-- Quotes hold no question mark. -/
structure Dialect.ClearQuotes (d : Dialect) : Prop where
  opening : '?' ∉ d.quotes.opening.toList
  closing : '?' ∉ d.quotes.closing.toList

namespace Dialect.ClearQuotes

variable (h : d.ClearQuotes)

include h

theorem quote {text : String} (clear : '?' ∉ text.toList) : '?' ∉ d.quote text := by
  simp only [Dialect.quote, List.mem_append, not_or]
  exact ⟨⟨h.opening, fun mem => (Text.mem_of_mem_doubledMark mem).elim clear h.closing⟩, h.closing⟩

/-- Only parameters are written with a question mark. -/
theorem spell {m : Mark} (clear : m.IsClear) (other : m.parameterName? = none) : '?' ∉ m.spell d := by
  cases m with
  | blank => simp [Mark.spell]
  | plain text => exact clear text List.mem_cons_self
  | name text =>
    have own := clear text List.mem_cons_self
    simp only [Mark.spell, Dialect.spellName]
    split
    · exact own
    split
    · exact h.quote own
    split
    · exact h.quote own
    · exact own
  | call text =>
    have own := clear text List.mem_cons_self
    simp only [Mark.spell, Dialect.spellCall]
    split
    · exact h.quote own
    · exact own
  | literal value => exact Literal.isClear_spell clear
  | specified specifier value =>
    obtain ⟨own, inner⟩ := List.forall_mem_cons.1 clear
    exact List.mem_append.not.2 (not_or.2 ⟨own, Literal.isClear_spell inner⟩)
  | parameter text => cases other

/-- Where a parameter is written as a question mark, there are as many of them as parameters. -/
theorem count_spellAll (style : d.parameterStyle = .anonymous) {ms : List Mark} (clear : AllClear ms) :
    (spellAll d ms).count '?' = (Mark.parameters ms).length := by
  induction ms with
  | nil => rfl
  | cons m ms ih =>
    obtain ⟨own, others⟩ := allClear_cons.1 clear
    rw [spellAll, List.flatMap_cons, List.count_append, ← spellAll, ih others, parameters_cons]
    cases name : m.parameterName? with
    | none =>
      rw [List.count_eq_zero.2 (h.spell own name), Nat.zero_add]
      rfl
    | some text =>
      have spelled : m.spell d = ['?'] := by
        cases m <;> simp_all [Mark.parameterName?, Mark.spell, Dialect.spellParameter]
      rw [spelled, List.count_singleton_self, Nat.add_comm]
      rfl

end Dialect.ClearQuotes

/-- A question mark is written in front of the name of each parameter, and quotes have none. -/
structure Dialect.MarksParameters (d : Dialect) : Prop where
  named : d.parameterStyle = .named
  symbol : d.parameterSymbol = "?"
  opening : '?' ∉ d.quotes.opening.toList
  closing : '?' ∉ d.quotes.closing.toList

namespace Dialect.MarksParameters

variable (h : d.MarksParameters)

include h

theorem clearQuotes : d.ClearQuotes := ⟨h.opening, h.closing⟩

/-- Split at its question marks, a text has a part for each parameter that begins with its name, after
a first part that begins with what is in front of the marks. -/
theorem split {ms : List Mark} (clear : AllClear ms) {front : List Char} (plain : '?' ∉ front) :
    ∃ first rest, (front ++ spellAll d ms).splitOn '?' = first :: rest ∧ front <+: first ∧
      List.Forall₂ (fun name chunk => name.toList <+: chunk) (Mark.parameters ms) rest := by
  induction ms generalizing front with
  | nil =>
    refine ⟨front, [], ?_, List.prefix_rfl, .nil⟩
    simpa [spellAll] using List.splitOn_eq_singleton plain
  | cons m ms ih =>
    obtain ⟨own, others⟩ := allClear_cons.1 clear
    rw [parameters_cons, spellAll, List.flatMap_cons]
    cases name : m.parameterName? with
    | none =>
      have spelled : '?' ∉ front ++ m.spell d :=
        List.mem_append.not.2 (not_or.2 ⟨plain, h.clearQuotes.spell own name⟩)
      obtain ⟨first, rest, split, begins, parts⟩ := ih others spelled
      rw [List.append_assoc] at split
      exact ⟨first, rest, split, (List.prefix_append _ _).trans begins, parts⟩
    | some text =>
      obtain rfl : m = .parameter text := by
        cases m <;> simp_all [Mark.parameterName?]
      have name : '?' ∉ text.toList := own text List.mem_cons_self
      obtain ⟨first, rest, split, begins, parts⟩ := ih others name
      have spelled : Mark.spell d (.parameter text) = '?' :: text.toList := by
        simp [Mark.spell, Dialect.spellParameter, h.named, h.symbol]
      refine ⟨front, first :: rest, ?_, List.prefix_rfl, .cons begins parts⟩
      rw [spelled, List.cons_append, List.splitOn_append_cons_self_of_not_mem plain]
      exact congrArg _ split

end Dialect.MarksParameters

/-- What is written of a node with no question mark in its texts has one question mark for each of its
parameters, in the order of the walk, and the name after it. -/
theorem Node.write_parameters {n : Node} {d : Dialect} {limit : Nat} {out : String}
    (clear : n.IsClear) (marks : d.MarksParameters) (written : n.write d limit = .ok out) :
    (out.toList.splitOn '?').length = (n.walk.filterMap Node.parameterName?).length + 1 ∧
      List.Forall₂ (fun name chunk => name.toList <+: chunk) (n.walk.filterMap Node.parameterName?)
        (out.toList.splitOn '?').tail := by
  have shown : n.Shown True d := Node.shown fun _ => clear
  obtain ⟨first, rest, split, _, parts⟩ := marks.split (shown.clear trivial) List.not_mem_nil
  have same : out.toList = spellAll d (n.marks d) := by
    rw [write, writeAt_eq] at written
    cases checked : n.checkAt limit limit with
    | error e =>
      rw [checked] at written
      cases written
    | ok _ =>
      rw [checked] at written
      obtain rfl := Except.ok.inj written
      exact String.toList_ofList
  rw [List.nil_append, ← same] at split
  rw [← parameters_eq_walk, shown.same, split]
  exact ⟨by rw [List.length_cons, parts.length_eq], parts⟩

/-- The branches of a case are written after its operand, and checked before it. -/
theorem Node.write_parameters_case :
    let d : Dialect := { Dialect.standard with parameterSymbol := "?" }
    let n := Node.expr (.case (some (.parameter "b")) ⟨[⟨.parameter "a", .literal (.string "x")⟩], none⟩)
    n.write d 9 = .ok "case ?b when ?a then 'x' end" ∧
      List.Forall₂ (fun name chunk => name.toList <+: chunk) (n.walk.filterMap Node.parameterName?)
        [['b', ' ', 'w', 'h', 'e', 'n', ' '], "a then 'x' end".toList] := by
  intro d n
  have written : n.write d 9 = .ok "case ?b when ?a then 'x' end" := by decide +kernel
  have clear : ∀ m ∈ n.walk, ∀ text ∈ m.ownTexts, '?' ∉ text.toList := by decide +kernel
  exact ⟨written, (write_parameters clear ⟨rfl, rfl, by decide, by decide⟩ written).2⟩

end SqlQuery
