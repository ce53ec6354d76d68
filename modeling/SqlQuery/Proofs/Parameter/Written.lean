import SqlQuery.Dialect.Preset
import SqlQuery.Proofs.Parameter.Order
import SqlQuery.Proofs.Written.Parameter

/-!
Anonymous parameters on their way from a text through the tree to what is written of it.
-/

namespace SqlQuery

variable {text : String} {limit : Nat} {lexemes : List Lexeme} {query : Query}

/-- The parameters of the tree are those of the text, and in the order of the text if those of limit
clauses are. -/
theorem parameters_of_parse (scanned : (scan text).2 = .ok lexemes)
    (anonymous : ∀ l ∈ lexemes, l.isParameter → l.isAnonymous)
    (parsed : Query.parse text limit = .ok query) :
    (Node.query query).parameters.Perm (Lexeme.parameters lexemes) ∧
      ((Node.query query).parameters = Lexeme.parameters lexemes ↔ (Node.query query).InOrder) := by
  have yields := yields_of_parse scanned parsed
  have increasing : Increasing (Lexeme.parameters lexemes) := by
    rw [numbered_of_scan scanned anonymous]
    exact increasing_ordinals 0 _
  constructor
  · have same := yields.same.filterMap Atom.parameter?
    simpa [Lexeme.parameters, Token.parameters, Node.parameters] using same.symm
  constructor
  · intro same
    apply Node.inOrder_of_increasing
    rwa [same]
  · intro inOrder
    have read := yields.order increasing (by simpa using inOrder)
    simpa [Lexeme.parameters, Token.parameters] using read.symm

/--
A query read from a text with so many anonymous parameters and no others holds each of them once.
They are in the order of the text exactly if no limit clause was written with parameters in its
offset before parameters in its limit. A dialect without names for parameters writes each of them as
one question mark, in the order of the walk, and so in the order of the text then.
-/
theorem parse_numbers (scanned : (scan text).2 = .ok lexemes)
    (anonymous : ∀ l ∈ lexemes, l.isParameter → l.isAnonymous)
    (parsed : Query.parse text limit = .ok query) :
    let count := lexemes.countP Lexeme.isParameter
    let names := (Node.query query).walk.filterMap Node.parameterName?
    Lexeme.parameters lexemes = ordinals count ∧ names.Perm (ordinals count) ∧
      (names = ordinals count ↔ (Node.query query).InOrder) ∧
      ∀ d levels out, d.parameterStyle = .anonymous → (Node.query query).write d levels = .ok out →
        let marks := (Node.query query).marks d
        out.toList = Mark.spellAll d marks ∧ (∀ name, Mark.spell d (.parameter name) = ['?']) ∧
          Mark.parameters marks = names ∧
          ((Node.query query).InOrder → Mark.parameters marks = Lexeme.parameters lexemes) ∧
          (d.ClearQuotes → (Node.query query).IsClear → out.toList.count '?' = count) := by
  intro count names
  have numbered : Lexeme.parameters lexemes = ordinals count := numbered_of_scan scanned anonymous
  have walked : names = (Node.query query).parameters := (Node.parameters_eq_walk _).symm
  obtain ⟨perm, order⟩ := parameters_of_parse scanned anonymous parsed
  rw [walked, ← numbered]
  refine ⟨rfl, perm, order, ?_⟩
  intro d levels out style written marks
  have spelled : out.toList = Mark.spellAll d marks := by
    obtain ⟨_, rfl⟩ := Node.write_ok_iff.1 written
    exact String.toList_ofList
  have shown : Mark.parameters marks = (Node.query query).parameters := Node.parameters_marks d _
  have mark (name : String) : Mark.spell d (.parameter name) = ['?'] := by
    simp only [Mark.spell, Dialect.spellParameter, style]
  refine ⟨spelled, mark, shown, fun inOrder => shown.trans (order.2 inOrder), ?_⟩
  intro quotes clear
  have allClear : Mark.AllClear marks := (Node.shown fun _ => clear).clear trivial
  calc out.toList.count '?'
    _ = (Mark.parameters marks).length := by rw [spelled, quotes.count_spellAll style allClear]
    _ = (Lexeme.parameters lexemes).length := by rw [shown, perm.length_eq]
    _ = count := by rw [numbered, ordinals, ordinalsAfter, List.length_map, List.length_range']

/-- The number of the parameters, and whether all are anonymous. -/
def Lexeme.survey (lexemes : List Lexeme) : Nat × Bool :=
  (lexemes.countP Lexeme.isParameter, lexemes.all fun l => !l.isParameter || l.isAnonymous)

theorem Lexeme.anonymous_of_survey (h : (survey lexemes).2 = true) :
    ∀ l ∈ lexemes, l.isParameter → l.isAnonymous := by
  simpa [survey, Decidable.imp_iff_not_or] using h

/-- A limit before its offset, and the same written for MySQL. -/
theorem parse_numbers_limit_first :
    ∃ lexemes query, (scan "select ? limit ? offset ?").2 = .ok lexemes ∧
      Query.parse "select ? limit ? offset ?" 128 = .ok query ∧
      (Node.query query).InOrder ∧
      (Node.query query).write Preset.mysql.dialect 9 = .ok "select ? limit ? offset ?" ∧
      Mark.parameters ((Node.query query).marks Preset.mysql.dialect) = ordinals 3 := by
  obtain ⟨lexemes, scanned, count⟩ := Except.toOption_map_eq_some (b := (3, true))
    (r := (scan "select ? limit ? offset ?").2) (f := Lexeme.survey) (by decide +kernel)
  obtain ⟨query, parsed, shown⟩ := Except.toOption_map_eq_some
    (b := (ordinals 3, (Except.ok "select ? limit ? offset ?" : Written)))
    (r := Query.parse "select ? limit ? offset ?" 128)
    (f := fun query => ((Node.query query).walk.filterMap Node.parameterName?,
      (Node.query query).write Preset.mysql.dialect 9)) (by rw [Query.parse_eq_run]; decide +kernel)
  obtain ⟨names, written⟩ := Prod.mk.inj shown
  have three : lexemes.countP Lexeme.isParameter = 3 := congrArg Prod.fst count
  obtain ⟨_, _, order, output⟩ := parse_numbers scanned
    (Lexeme.anonymous_of_survey (congrArg Prod.snd count)) parsed
  obtain ⟨_, _, marked, _⟩ := output _ 9 _ rfl written
  rw [three] at order
  exact ⟨lexemes, query, scanned, parsed, order.1 names, written, marked.trans names⟩

/-- An offset before its limit: its parameter is written first and walked last. -/
theorem offset_first_walks_last :
    ∃ lexemes query, (scan "select 1 offset ? limit ?").2 = .ok lexemes ∧
      (∀ l ∈ lexemes, l.isParameter → l.isAnonymous) ∧
      Query.parse "select 1 offset ? limit ?" 128 = .ok query ∧
      (Node.query query).walk.filterMap Node.parameterName? ≠
        ordinals (lexemes.countP Lexeme.isParameter) := by
  obtain ⟨lexemes, scanned, count⟩ := Except.toOption_map_eq_some (b := (2, true))
    (r := (scan "select 1 offset ? limit ?").2) (f := Lexeme.survey) (by decide +kernel)
  obtain ⟨query, parsed, names⟩ := Except.toOption_map_eq_some (b := ["2", "1"])
    (r := Query.parse "select 1 offset ? limit ?" 128)
    (f := fun query => (Node.query query).walk.filterMap Node.parameterName?)
    (by rw [Query.parse_eq_run]; decide +kernel)
  have two : lexemes.countP Lexeme.isParameter = 2 := congrArg Prod.fst count
  refine ⟨lexemes, query, scanned,
    Lexeme.anonymous_of_survey (congrArg Prod.snd count), parsed, ?_⟩
  rw [names, two]
  decide

end SqlQuery
