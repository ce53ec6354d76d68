import SqlQuery.Proofs.Scanning.Open

/-!
Values stand where they are written, each of them once the parts that it is written from do.
-/

namespace SqlQuery

open Mark

variable {d : Dialect} [d.Readable] {previous : Option Token} {cs : List Char}

namespace Stands

omit [d.Readable] in
theorem literal {value : Literal} (legible : value.Legible) (ending : Ending d [.literal value] cs)
    (operand : (Expr.literal value).leadsSigned = true →
      previous.all Token.expectsOperand = true) :
    Stands d previous [.literal value] cs := by
  refine one rfl fun ts later => ?_
  cases value with
  | number text =>
    rcases legible with number | ⟨digits, chars, number⟩
    · have same : (⟨.literal, String.ofList text.toList⟩ : Token) = ⟨.literal, text⟩ := by
        rw [String.ofList_toList]
      change Scans d (some ⟨.literal, text⟩) cs ts at later
      rw [← same] at later
      have scanned : Scans d previous (text.toList ++ cs) _ :=
        .unsigned number ending.number later
      rwa [same] at scanned
    · have signed : (Expr.literal (.number text)).leadsSigned = true := by
        simp [Expr.leadsSigned, Expr.first, chars]
      have same : (⟨.literal, String.ofList ('-' :: digits)⟩ : Token) = ⟨.literal, text⟩ := by
        rw [← chars, String.ofList_toList]
      have spelled : (Mark.literal (.number text)).spell d ++ cs = '-' :: (digits ++ cs) := by
        simp [Mark.spell, Literal.spell, chars]
      change Scans d (some ⟨.literal, text⟩) cs ts at later
      rw [← same] at later
      have scanned : Scans d previous ('-' :: (digits ++ cs)) _ :=
        .negative number ending.number (operand signed) later
      rw [spelled]
      rwa [same] at scanned
  | string text =>
    have front : Piece.Heads previous ⟨.literal, _, _, cs⟩ _ := .string legible (ending.ne (by decide))
    exact .next front (fun same => Kind.noConfusion same) later
  | boolean value =>
    cases value with
    | true =>
      have complete : Keyword.isComplete "true" = true := by decide
      exact Scans.keyword complete ending.boundary (Lexeme.Name.longerKeyword?_single (by decide)) later
    | false =>
      have complete : Keyword.isComplete "false" = true := by decide
      exact Scans.keyword complete ending.boundary (Lexeme.Name.longerKeyword?_single (by decide)) later
  | null =>
    have complete : Keyword.isComplete "null" = true := by decide
    exact Scans.keyword complete ending.boundary (Lexeme.Name.longerKeyword?_single (by decide)) later

/-- A name with its namespaces, where the name itself stands in front or after a point. -/
theorem qualified {m : Mark} {namespaces : List String} (named : ∀ n ∈ namespaces, IsName n)
    (clear : Clear previous) (plain : (m.spell d ++ cs).head?.any Char.isDigit = false)
    (here : namespaces = [] → Stands d previous [m] cs) (inside : Stands d (some dotToken) [m] cs) :
    Stands d previous (qualify namespaces m) cs := by
  induction namespaces generalizing previous with
  | nil => exact here rfl
  | cons n ns ih =>
    have first : n ≠ wildcardName := named n List.mem_cons_self
    have later : Stands d (some dotToken) (qualify ns m) cs :=
      ih (fun n mem => named n (List.mem_cons_of_mem _ mem)) (.of_ne rfl) fun _ => inside
    have start : (spellAll d (qualify ns m) ++ cs).head?.any Char.isDigit = false := by
      cases ns with
      | nil =>
        rw [← spellAll_singleton] at plain
        exact plain
      | cons k ns =>
        have second : k ≠ wildcardName := named k (by simp)
        rw [qualify_cons, spellAll_cons, spellAll_cons, List.append_assoc]
        exact Expr.OpensAs.not_digit (e := .columnNamed k)
          (.of_name second (.cons (by decide) _)) rfl
    rw [qualify_cons]
    refine append (a := [.name n]) (name first clear (.cons (by decide) (by decide) _)) ?_
    refine append (a := [.plain "."]) (dot start) ?_
    rwa [lastRead_of_tokens tokens_dot]

end Stands

omit [d.Readable] in
/-- The token of the last mark is the last one. -/
theorem lastRead_qualify (namespaces : List String) {m : Mark} {t : Token} (tokens : m.tokens = [t])
    (previous : Option Token) : lastRead previous (qualify namespaces m) = some t := by
  rw [lastRead, read_qualify, tokens, lastOf_append, lastOf_singleton]

/-- The value stands after every token that it follows, ends with a token that closes it, and begins
like a value. -/
structure Expr.Placed (d : Dialect) (e : Expr) : Prop where
  settles : ∀ previous, e.Follows previous → Settles d previous (e.marks d)
  closes : ∀ previous, e.Follows previous →
    (lastRead previous (e.marks d)).any Token.closes = true
  opens : ∀ cs, Ending d (e.marks d) cs → e.OpensAs (spellAll d (e.marks d) ++ cs)

/-- The value may also stand where an operand is expected. -/
structure Expr.Seated (d : Dialect) (e : Expr) : Prop extends Expr.Placed d e where
  sign : e.leadsLooseSign = false

namespace Expr

variable {e left : Expr} {t : Token}

theorem IsSettled.follows (h : e.IsSettled) (clear : Clear previous)
    (sign : e.leadsLooseSign = true → previous.all Token.expectsOperand = false) :
    e.Follows previous :=
  ⟨clear, fun signed => absurd signed (by simp [h.1]), sign, fun star => absurd star (by simp [h.2])⟩

theorem follows_of_operand (sign : e.leadsLooseSign = false) (clear : t.isCommand "array" = false)
    (operand : t.expectsOperand = true) (star : e.leadsStar = true → t.precedesWildcard = true) :
    e.Follows (some t) :=
  ⟨clear, fun _ => operand, fun loose => absurd loose (by simp [sign]), star⟩

omit [d.Readable] in
/-- Such a value follows a token after which a sign and a star cannot be operators. -/
theorem Seated.follows (h : e.Seated d) (clear : t.isCommand "array" = false)
    (operand : t.expectsOperand = true) (wildcard : t.precedesWildcard = true) :
    e.Follows (some t) :=
  follows_of_operand h.sign clear operand fun _ => wildcard

omit [d.Readable] in
/-- After other tokens a star at the front would be an operator. -/
theorem Seated.follows_starless (h : e.Seated d) (clear : t.isCommand "array" = false)
    (operand : t.expectsOperand = true) (star : e.leadsStar = false) : e.Follows (some t) :=
  follows_of_operand h.sign clear operand fun leads => absurd leads (by simp [star])

theorem Follows.of_first (h : e.Follows previous) (first : e.first = left.first) :
    left.Follows previous := by
  have signed : e.leadsSigned = left.leadsSigned := by rw [leadsSigned, leadsSigned, first]
  have loose : e.leadsLooseSign = left.leadsLooseSign := by
    rw [leadsLooseSign, leadsLooseSign, first]
  have star : e.leadsStar = left.leadsStar := by rw [leadsStar, leadsStar, first]
  exact ⟨h.clear, signed ▸ h.operand, loose ▸ h.sign, star ▸ h.wildcard⟩

omit [d.Readable] in
theorem placed_literal {value : Literal} (legible : value.Legible) :
    (Expr.literal value).Placed d where
  settles := fun _ follows _ ending => .literal legible ending follows.operand
  closes := by
    intro previous _
    change (lastRead previous [.literal value]).any Token.closes = true
    rw [lastRead_of_tokens rfl]
    cases value with
    | boolean value => cases value <;> decide
    | null => decide
    | _ => rfl
  opens := by
    intro cs ending
    change (Expr.literal value).OpensAs (spellAll d [Mark.literal value] ++ cs)
    rw [spellAll_singleton]
    cases value with
    | number text =>
      rcases legible with number | ⟨digits, chars, _⟩
      · have unsigned : (Expr.literal (.number text)).leadsUnsigned = true := by
          obtain ⟨c, rest, chars, digit⟩ := number.start
          have minus : c ≠ '-' := ne_of_digit digit (by decide)
          simp [leadsUnsigned, first, chars, minus]
        exact .of_digits number unsigned cs
      · have spelled : (Mark.literal (.number text)).spell d = '-' :: digits := chars
        rw [spelled]
        exact .of_char (by decide) _
    | string text => exact .of_char (by decide) _
    | boolean value =>
      cases value with
      | true => exact .of_keyword "true" (by decide) (by decide) ending.boundary
      | false => exact .of_keyword "false" (by decide) (by decide) ending.boundary
    | null => exact .of_keyword "null" (by decide) (by decide) ending.boundary

theorem placed_parameter {name : String} (legible : (Expr.parameter name).Legible d) :
    (Expr.parameter name).Placed d where
  settles := fun _ _ _ ending => .parameter legible.1 legible.2 ending.boundary
  closes := by
    intro previous _
    change (lastRead previous [.parameter name]).any Token.closes = true
    rw [lastRead_of_tokens rfl]
    rfl
  opens := by
    intro cs _
    change (Expr.parameter name).OpensAs (spellAll d [Mark.parameter name] ++ cs)
    rw [spellAll_singleton]
    exact .of_parameter name

omit [d.Readable] in
theorem marks_column (ref : ColumnRef) :
    (Expr.column ref).marks d = qualify ref.namespaces (.name ref.column) := by
  rw [Expr.marks, ColumnRef.marks]

theorem opens_qualified {namespaces : List String} {m : Mark} (named : ∀ n ∈ namespaces, IsName n)
    (here : namespaces = [] → e.OpensAs (m.spell d ++ cs)) :
    e.OpensAs (spellAll d (qualify namespaces m) ++ cs) := by
  cases namespaces with
  | nil =>
    have single : qualify [] m = [m] := by simp [qualify, List.intercalate]
    rw [single, spellAll_singleton]
    exact here rfl
  | cons n ns =>
    rw [qualify_cons, spellAll_cons, spellAll_cons, List.append_assoc, List.append_assoc]
    exact .of_name (named n List.mem_cons_self) (.cons (by decide) _)

theorem placed_column {ref : ColumnRef} (named : ∀ n ∈ ref.namespaces, IsName n) :
    (Expr.column ref).Placed d := by
  obtain ⟨namespaces, column⟩ := ref
  have leads : namespaces = [] → column = wildcardName →
      (Expr.column ⟨namespaces, column⟩).leadsStar = true := by
    rintro rfl rfl
    simp [leadsStar, first, ColumnRef.wildcard]
  have spelled : (Mark.name wildcardName).spell d = ['*'] := by
    simp [Mark.spell, Dialect.spellName, wildcardName]
  constructor
  · intro previous follows cs ending
    rw [marks_column] at ending ⊢
    have last := ending.of_qualify
    by_cases star : column = wildcardName
    · subst star
      refine .qualified named follows.clear (by rw [spelled]; rfl) (fun none => ?_) (.wildcard rfl)
      exact .wildcard (follows.wildcard (leads none rfl))
    · refine .qualified named follows.clear ?_ (fun _ => .name star follows.clear last.name)
        (.name star (.of_ne rfl) last.name)
      exact OpensAs.not_digit (e := .columnNamed column) (.of_name star ending.boundary) rfl
  · intro previous follows
    rw [marks_column, lastRead_qualify _ rfl]
    rfl
  · intro cs ending
    rw [marks_column]
    refine opens_qualified named fun none => ?_
    by_cases star : column = wildcardName
    · subst star
      rw [spelled]
      exact .of_wildcard (leads none rfl) cs
    · exact .of_name star ending.boundary

/-- What stands in parentheses of its own stands everywhere. -/
theorem placed_parens {ms : List Mark} (marks : e.marks d = inParens ms)
    (inner : Settles d (some openToken) ms) : e.Placed d where
  settles := by
    intro previous _ cs _
    rw [marks]
    exact inner.parens cs
  closes := by
    intro previous _
    rw [marks, lastRead_inParens]
    rfl
  opens := by
    intro cs _
    rw [marks]
    exact .of_char (by decide) _

/-- Values with commas between them, in front of which this token stands. -/
theorem values_settle {es : List Expr} (each : ∀ e ∈ es, e.Seated d)
    (first : ∀ e ∈ es.head?, e.Follows previous) :
    Settles d previous (commaSeparated (exprsMarks d es)) := by
  rw [exprsMarks_eq]
  refine .commas _ (fun part head => ?_) fun part mem => ?_
  · rw [List.head?_map] at head
    obtain ⟨e, one, rfl⟩ := Option.map_eq_some_iff.1 head
    exact (each e (List.mem_of_mem_head? one)).settles previous (first e one)
  · rw [← List.map_tail] at mem
    obtain ⟨e, inside, rfl⟩ := List.mem_map.1 mem
    have seated := each e (List.mem_of_mem_tail inside)
    exact seated.settles _ (seated.follows rfl rfl rfl)

theorem opened_settle {es : List Expr} (each : ∀ e ∈ es, e.Seated d) :
    Settles d (some openToken) (commaSeparated (exprsMarks d es)) :=
  values_settle each fun e head => (each e (List.mem_of_mem_head? head)).follows rfl rfl rfl

theorem placed_tuple {es : List Expr} (each : ∀ e ∈ es, e.Seated d) :
    (Expr.tuple es).Placed d :=
  placed_parens (by rw [Expr.marks]) (opened_settle each)

theorem placed_paren {inner : Expr} (h : inner.Seated d) : (Expr.paren inner).Placed d :=
  placed_parens (by rw [Expr.marks]) (h.settles _ (h.follows rfl rfl rfl))

theorem placed_inlineQuery {q : Query} (h : Settles d (some openToken) (q.marks d)) :
    (Expr.inlineQuery q).Placed d :=
  placed_parens (by rw [Expr.marks]) h

end Expr

end SqlQuery
