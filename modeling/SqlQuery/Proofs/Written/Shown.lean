import SqlQuery.Proofs.Written.Shows

/-!
The marks of a node have the parameters that a walk over the node meets, in the same order: one proof
for each kind of node, from its parts.
-/

namespace SqlQuery

open Child Mark

variable {asked : Prop} {d : Dialect}

theorem Text.mem_of_mem_trim {text : String} {c : Char} (mem : c ∈ (trim text).toList) :
    c ∈ text.toList := by
  rw [trim, trimChars, String.toList_ofList, List.mem_reverse] at mem
  exact (List.dropWhile_suffix _).subset
    (List.mem_reverse.1 ((List.dropWhile_suffix _).subset mem))

theorem Shows.content {e : Expr} {r : String} (h : (Node.expr e).Shown asked d) :
    Shows asked [argumentMarks d (some e)] [(r, .expr e)] := by
  have own : Shows asked [e.marks d] [(r, .expr e)] := .node h .nil
  cases e with
  | inlineQuery q => exact .marked h.query.1 h.query.2 .nil
  | _ => exact own

theorem FunctionCall.shows {call : FunctionCall} (parts : ∀ c ∈ call.children, c.2.Shown asked d) :
    Shows asked [call.marks d] call.children := by
  obtain ⟨namespaces, name, argument, window⟩ := call
  simp only [FunctionCall.children, List.forall_mem_append, List.forall_mem_cons, forall_maybe,
    forall_each] at parts
  obtain ⟨⟨⟨names, text, _⟩, content⟩, overClause⟩ := parts
  have named : Shows asked [qualify namespaces (.call (Text.trim name))]
      (each "namespace" .identifier namespaces ++ [("name", .expr (.raw name))]) :=
    .qualified (fun given => by simpa [IsClear, texts] using text.trimmed given) rfl names
      (.silent (Node.parameters_raw name) .nil)
  have contained : Shows asked [argumentMarks d argument] (maybe "argument" .expr argument) := by
    cases argument with
    | none => exact .words (fun _ => allClear_nil) rfl .nil
    | some e => exact .content (content e rfl)
  have windowed : Shows asked [windowMarks d window] (maybe "over" .overClause window) := by
    cases window with
    | none => exact .words (fun _ => allClear_nil) rfl .nil
    | some o =>
      obtain ⟨clear, same⟩ := overClause o rfl
      exact .marked (fun given => allClear_cons.2 ⟨isClear_blank, clear given⟩) same .nil
  have call := (named.append (contained.joined isJoin_flatten.inParens)).append windowed
  simpa [FunctionCall.marks, FunctionCall.children] using call.joined isJoin_flatten

theorem TypeRef.shows {ref : TypeRef} (parts : ∀ c ∈ ref.children, c.2.Shown asked d) :
    Shows asked [ref.marks d] ref.children := by
  obtain ⟨name, argument⟩ := ref
  simp only [TypeRef.children, List.forall_mem_cons, forall_maybe] at parts
  obtain ⟨text, content⟩ := parts
  cases argument with
  | none => exact .raw text .nil
  | some e =>
    have inner : Shows asked [e.marks d] [("argument", .expr e)] := .node (content e rfl) .nil
    have type := Shows.raw (r := "name") text (inner.joined isJoin_flatten.inParens)
    simpa [TypeRef.marks, TypeRef.children, maybe, each] using type.joined isJoin_flatten

theorem unaryMarks_eq (operator : String) (operand : List Mark) :
    unaryMarks d operator operand = spaced [[rawMark operator], operand] ∨
      unaryMarks d operator operand = [[rawMark operator], operand].flatten := by
  unfold unaryMarks
  dsimp only
  split
  · exact .inl (by rw [spaced_cons_cons, spaced_singleton]; rfl)
  · exact .inr (by simp [rawMark])

theorem Expr.shown {e : Expr} (own : asked → ∀ text ∈ (Node.expr e).ownTexts, '?' ∉ text.toList)
    (parts : ∀ c ∈ e.children, c.2.Shown asked d) : (Node.expr e).Shown asked d := by
  cases e with
  | literal value =>
    have clear (given : asked) : AllClear [.literal value] :=
      List.forall_mem_singleton.2 (own given)
    exact .join isJoin_flatten (.words clear rfl .nil) rfl rfl
  | raw text =>
    have trimmed (given : asked) : AllClear [.plain (Text.trim text)] := by
      have clear := own given text (by simp [Node.ownTexts])
      simpa using fun mem => clear (Text.mem_of_mem_trim mem)
    exact .join isJoin_flatten (.words trimmed rfl .nil) rfl rfl
  | column ref =>
    simp only [Expr.children, List.forall_mem_append, List.forall_mem_cons, forall_each] at parts
    obtain ⟨names, column, _⟩ := parts
    refine .join isJoin_flatten (.qualified (fun given => column.clear given _ List.mem_cons_self) rfl names <|
      .silent (Node.parameters_identifier _) .nil) rfl ?_
    simp [Node.marks, Expr.marks, ColumnRef.marks]
  | function call =>
    exact .join isJoin_flatten (FunctionCall.shows parts) rfl (by simp [Node.marks, Expr.marks])
  | unary operator operand =>
    simp only [Expr.children, List.forall_mem_cons] at parts
    obtain ⟨text, inner, _⟩ := parts
    have apart : Shows asked [[rawMark operator], operand.marks d] (Expr.unary operator operand).children :=
      .raw text (.node inner .nil)
    have marks : (Node.expr (.unary operator operand)).marks d =
        unaryMarks d operator (operand.marks d) := by rw [Node.marks, Expr.marks]
    rcases unaryMarks_eq operator (operand.marks d) with same | same
    · exact .join isJoin_spaced apart rfl (marks.trans same)
    · exact .join isJoin_flatten apart rfl (marks.trans same)
  | binary left operator right =>
    simp only [Expr.children, List.forall_mem_cons] at parts
    obtain ⟨left, operator, right, _⟩ := parts
    exact .join isJoin_spaced (.node left <| .raw operator <| .node right .nil) rfl rfl
  | parameter name =>
    refine ⟨fun given => by
      simpa [Node.marks, Expr.marks, IsClear, texts, Node.ownTexts] using own given, ?_⟩
    rw [Node.parameters_eq_walk, Node.walk_eq]
    rfl
  | array content =>
    have inner := parts _ List.mem_cons_self
    have array : '?' ∉ "array".toList := by decide
    have brackets : '?' ∉ "[".toList ∧ '?' ∉ "]".toList := by decide
    cases content with
    | inlineQuery q =>
      exact .join isJoin_flatten (.keyword "array" array <| .node inner .nil) rfl
        (by simp [Node.marks, Expr.marks])
    | _ =>
      exact .join isJoin_flatten (.keyword "array" array <| .keyword "[" brackets.1 <|
        .node inner <| .keyword "]" brackets.2 .nil) rfl (by simp [Node.marks, Expr.marks])
  | tuple values =>
    have each := Shows.each (r := "value") (forall_each.1 parts)
    exact .join isJoin_commaSeparated.inParens each rfl
      (by rw [Node.marks, Expr.marks, exprsMarks_eq]; rfl)
  | list values =>
    have each := Shows.each (r := "value") (forall_each.1 parts)
    exact .join isJoin_commaSeparated each rfl (by rw [Node.marks, Expr.marks, exprsMarks_eq]; rfl)
  | case subject arms =>
    simp only [Expr.children, List.forall_mem_append, List.forall_mem_cons, forall_maybe] at parts
    obtain ⟨operand, inner, _⟩ := parts
    cases subject with
    | none =>
      exact .join isJoin_spaced (.keyword "case" (by decide) <| .node inner <|
        .keyword "end" (by decide) .nil) rfl rfl
    | some e =>
      exact .join isJoin_spaced (.keyword "case" (by decide) <| .node (operand e rfl) <|
        .node inner <| .keyword "end" (by decide) .nil) rfl rfl
  | cast input ref =>
    simp only [Expr.children, List.forall_mem_cons] at parts
    obtain ⟨operand, type, _⟩ := parts
    by_cases primary : input.isPrimary = true
    · exact .join isJoin_flatten (.node operand <| .keyword "::" (by decide) <| .node type .nil) rfl
        (by simp [Node.marks, Expr.marks, castMarks, primary])
    · exact .join isJoin_flatten (.keyword "cast" (by decide) <| .joined isJoin_spaced.inParens <|
        .node operand <| .keyword "as" (by decide) <| .node type .nil) rfl
        (by simp [Node.marks, Expr.marks, castMarks, primary])
  | paren inner =>
    exact .join isJoin_flatten.inParens (.node (parts _ List.mem_cons_self) .nil) rfl
      (by simp [Node.marks, Expr.marks])
  | between operand lower upper negated =>
    simp only [Expr.children, List.forall_mem_cons] at parts
    obtain ⟨operand, lower, upper, _⟩ := parts
    have between : '?' ∉ (betweenWord negated).toList := by cases negated <;> decide
    exact .join isJoin_spaced (.node operand <| .keyword _ between <| .node lower <|
      .keyword "and" (by decide) <| .node upper .nil) rfl rfl
  | type ref =>
    exact .join isJoin_flatten (TypeRef.shows parts) rfl (by simp [Node.marks, Expr.marks])
  | specifiedString specifier value =>
    simp only [Expr.children, List.forall_mem_cons] at parts
    obtain ⟨text, literal, _⟩ := parts
    have clear (given : asked) : AllClear (specifiedMarks specifier value) := by
      have own := text.trimmed given
      have inner : (Mark.literal value).IsClear := literal.clear given _ List.mem_cons_self
      unfold specifiedMarks
      dsimp only
      split <;> simp_all [IsClear, texts]
    have none : Mark.parameters (specifiedMarks specifier value) = [] := by
      unfold specifiedMarks
      dsimp only
      split <;> rfl
    exact .join isJoin_flatten (.words clear none <| .silent (Node.parameters_raw _) <|
      .silent (Node.parameters_of_children rfl) .nil) rfl (by simp [Node.marks, Expr.marks])
  | inlineQuery q =>
    exact .join isJoin_flatten.inParens (.node (parts _ List.mem_cons_self) .nil) rfl
      (by simp [Node.marks, Expr.marks])

theorem Select.shows {s : Select} (parts : ∀ c ∈ s.children, c.2.Shown asked d) :
    Shows asked [s.marks d] s.children := by
  obtain ⟨w, c, f, e, es, g, ws, is, l, x, mode⟩ := s
  simp only [Select.children, List.forall_mem_append, List.forall_mem_cons, forall_maybe] at parts
  obtain ⟨⟨⟨⟨⟨⟨⟨⟨⟨⟨tables, clause, _⟩, source⟩, filter⟩, groups⟩, group⟩, window⟩, order⟩, limit⟩,
    fetch⟩, lock⟩ := parts
  have clauses :=
    Shows.optional "with" (withMarks d) rfl (fun _ => rfl) tables
    |>.append (.node (r := "select") clause .nil)
    |>.append (.optional "from" (fromMarks d) rfl (fun _ => rfl) source)
    |>.append (.optional "where" (keywordedMarks d "where") rfl (fun _ => rfl) filter)
    |>.append (.optional "group_by" (valuesMarks d "group by") rfl (fun _ => rfl) groups)
    |>.append (.optional "having" (keywordedMarks d "having") rfl (fun _ => rfl) group)
    |>.append (.optional "window" (windowsMarks d) rfl (fun _ => rfl) window)
    |>.append (.optional "order_by" (orderMarks d) rfl (fun _ => rfl) order)
    |>.append (.optional "limit" (limitMarks d) rfl (fun _ => rfl) limit)
    |>.append (.optional "fetch" (fetchMarks d) rfl (fun _ => rfl) fetch)
    |>.append (.optional "for" lockMarks rfl (fun _ => rfl) lock)
  rw [Select.marks]
  exact clauses.joined isJoin_clauses

theorem Query.shown {q : Query} (parts : ∀ c ∈ q.children, c.2.Shown asked d) :
    (Node.query q).Shown asked d := by
  cases q with
  | simple s => exact .join isJoin_flatten (Select.shows parts) rfl (by simp [Node.marks, Query.marks])
  | binary left operator right =>
    simp only [Query.children, List.forall_mem_cons] at parts
    obtain ⟨left, operator, right, _⟩ := parts
    exact .join isJoin_spaced (.node left <| .raw operator <| .node right .nil) rfl rfl
  | values rows =>
    exact .join isJoin_spaced (.listed "values" (by decide) (forall_each.1 parts)) rfl
      (by rw [Node.marks, Query.marks, rowsMarks_eq]; rfl)

theorem JoinCondition.shows {condition : JoinCondition}
    (parts : ∀ c ∈ condition.children, c.2.Shown asked d) :
    Shows asked [condition.marks d] condition.children := by
  cases condition with
  | on e =>
    exact .joined isJoin_spaced (.keyword "on" (by decide) <|
      .node (parts _ List.mem_cons_self) .nil)
  | columns names =>
    have each := Shows.each (r := "using") (forall_each.1 parts)
    exact .joined isJoin_spaced (.keyword "using" (by decide) <|
      each.joined isJoin_commaSeparated.inParens)

theorem Bound.shows {b : Bound} {r : String} (parts : ∀ e ∈ b.offset?, (Node.expr e).Shown asked d) :
    Shows asked [b.marks d] (maybe r .expr b.offset?) := by
  cases b with
  | preceding e | following e =>
    exact .joined isJoin_spaced (.node (parts e rfl) <| .keyword _ (by decide) .nil)
  | _ => exact .joined isJoin_spaced (.keyword _ (by decide) <| .keyword _ (by decide) .nil)

theorem SourceAlias.shows {a : SourceAlias}
    (parts : ∀ c ∈ (Node.sourceAlias a).children, c.2.Shown asked d) :
    Shows asked [a.marks] (Node.sourceAlias a).children := by
  simp only [Node.children, List.forall_mem_cons, forall_each] at parts
  obtain ⟨name, names⟩ := parts
  have columns := Shows.each (r := "column") names
  unfold SourceAlias.marks
  split
  case isTrue => exact .node name (.silentEach Node.parameters_identifier _)
  case isFalse =>
    have own : Shows asked [[.name a.name]] [("name", .identifier a.name)] := .node name .nil
    exact own.extend (columns.joined isJoin_commaSeparated).parens

theorem DataSource.shows {data : DataSource} (h : data.node.Shown asked d) (r : String) :
    Shows asked [data.marks d] [(r, data.node)] := by
  cases data with
  | table ref => exact .node h .nil
  | subQuery q => exact .parens (.node h .nil)
  | function call => exact .node h .nil

theorem Source.shows {s : Source} (parts : ∀ c ∈ (Node.source s).children, c.2.Shown asked d) :
    Shows asked [s.marks d] (Node.source s).children := by
  obtain ⟨data, sourceAlias⟩ := s
  simp only [Node.children, List.forall_mem_cons, forall_maybe] at parts
  obtain ⟨first, named⟩ := parts
  have own := DataSource.shows first "datasource"
  unfold Source.marks
  cases kept : Source.effectiveAlias ⟨data, sourceAlias⟩ with
  | none => exact own.append (.silentEach Node.parameters_sourceAlias _)
  | some a =>
    obtain ⟨rfl, _⟩ := Option.filter_eq_some_iff.1 kept
    exact .joined isJoin_spaced (own.append <| .keyword "as" (by decide) <| .node (named a rfl) .nil)

theorem SelectItem.shows {i : SelectItem} (parts : ∀ c ∈ (Node.selectItem i).children, c.2.Shown asked d) :
    Shows asked [i.marks d] (Node.selectItem i).children := by
  obtain ⟨value, aliasName⟩ := i
  simp only [Node.children, List.forall_mem_cons, forall_maybe] at parts
  obtain ⟨first, named⟩ := parts
  unfold SelectItem.marks
  cases kept : SelectItem.effectiveAlias ⟨value, aliasName⟩ with
  | none => exact .node first (.silentEach Node.parameters_identifier _)
  | some name =>
    obtain ⟨rfl, _⟩ := Option.filter_eq_some_iff.1 kept
    exact .joined isJoin_spaced (.node first <| .keyword "as" (by decide) <|
      .node (named name rfl) .nil)

theorem Switch.shown {s : Switch} (parts : ∀ c ∈ (Node.switch s).children, c.2.Shown asked d) :
    (Node.switch s).Shown asked d := by
  obtain ⟨branches, otherwise⟩ := s
  simp only [Node.children, List.forall_mem_append, forall_each, forall_maybe] at parts
  obtain ⟨branches', other⟩ := parts
  have each := (Shows.each (r := "case") branches').joined isJoin_spaced
  cases otherwise with
  | none =>
    exact .join isJoin_flatten (each.append .nil) rfl
      (by simp [Node.marks, Switch.marks, branchesMarks_eq])
  | some e =>
    exact .join isJoin_spaced (each.append <| .keyword "else" (by decide) <|
      .node (other e rfl) .nil) rfl (by simp [Node.marks, Switch.marks, branchesMarks_eq])

theorem Distinct.shown {x : Distinct} (parts : ∀ c ∈ (Node.distinct x).children, c.2.Shown asked d) :
    (Node.distinct x).Shown asked d := by
  cases x with
  | rows => exact .join isJoin_flatten (.keyword "distinct" (by decide) .nil) rfl rfl
  | on values =>
    have list : Shows asked [(Expr.list values).marks d] [("on", .expr (.list values))] :=
      .node (parts _ List.mem_cons_self) .nil
    exact .join isJoin_spaced (.keyword "distinct on" (by decide) list.parens) rfl
      (by simp [Node.marks, Distinct.marks, Expr.marks])

theorem SelectClause.shown {c : SelectClause}
    (parts : ∀ c' ∈ (Node.select c).children, c'.2.Shown asked d) : (Node.select c).Shown asked d := by
  obtain ⟨distinct, items⟩ := c
  simp only [Node.children, List.forall_mem_append, forall_each, forall_maybe] at parts
  obtain ⟨rows, items'⟩ := parts
  cases distinct with
  | none =>
    exact .join isJoin_spaced (.listed (r := "item") "select" (by decide) items') rfl
      (by rw [Node.marks, SelectClause.marks, itemsMarks_eq]; rfl)
  | some x =>
    have each := (Shows.each (r := "item") items').joined isJoin_commaSeparated
    exact .join isJoin_spaced (.keyword "select" (by decide) <| .node (rows x rfl) each) rfl
      (by rw [Node.marks, SelectClause.marks, itemsMarks_eq]; rfl)

theorem Join.shown {j : Join} (parts : ∀ c ∈ (Node.join j).children, c.2.Shown asked d) :
    (Node.join j).Shown asked d := by
  obtain ⟨kind, lateral, source, condition⟩ := j
  simp only [Node.children, List.forall_mem_append, List.forall_mem_cons, List.forall_mem_flatMap,
    Option.mem_toList] at parts
  obtain ⟨⟨text, first, _⟩, inner⟩ := parts
  have placed : Shows asked (optionalWord lateral "lateral" ++ [source.marks d])
      [("source", .source source)] := by
    cases lateral with
    | true => exact .keyword "lateral" (by decide) (.node first .nil)
    | false => exact .node first .nil
  have joined := (Shows.raw (r := "type") text .nil).append placed
  cases condition with
  | none => exact .join isJoin_spaced joined rfl (by simp [Node.marks, Join.marks])
  | some condition =>
    have last := JoinCondition.shows (inner condition rfl)
    exact .join isJoin_spaced (joined.append (last.append .nil)) rfl
      (by simp [Node.marks, Join.marks])

theorem Over.shown {o : Over} (parts : ∀ c ∈ (Node.overClause o).children, c.2.Shown asked d) :
    (Node.overClause o).Shown asked d := by
  cases o with
  | named name =>
    exact .join isJoin_spaced (.keyword "over" (by decide) <|
      .node (parts _ List.mem_cons_self) .nil) rfl rfl
  | window spec =>
    exact .join isJoin_flatten (.keyword "over" (by decide) <| .joined isJoin_flatten.inParens <|
      .node (parts _ List.mem_cons_self) .nil) rfl (by simp [Node.marks, Over.marks])

theorem WindowSpec.shown {w : WindowSpec}
    (parts : ∀ c ∈ (Node.windowSpec w).children, c.2.Shown asked d) : (Node.windowSpec w).Shown asked d := by
  obtain ⟨values, items, frame⟩ := w
  simp only [Node.children, List.forall_mem_append, forall_maybe] at parts
  obtain ⟨⟨partition, order⟩, rows⟩ := parts
  have clauses :=
    Shows.optional "partition" (valuesMarks d "partition by") rfl (fun _ => rfl) partition
    |>.append (.optional "order" (orderMarks d) rfl (fun _ => rfl) order)
    |>.append (.optional "frame" (frameMarks d) rfl (fun _ => rfl) rows)
  exact .join isJoin_clauses clauses rfl (by rw [Node.marks, WindowSpec.marks]; rfl)

theorem Frame.shown {f : Frame} (parts : ∀ c ∈ (Node.frame f).children, c.2.Shown asked d) :
    (Node.frame f).Shown asked d := by
  obtain ⟨unit, start, stop⟩ := f
  simp only [Node.children, List.forall_mem_append, forall_maybe] at parts
  obtain ⟨first, last⟩ := parts
  have word : '?' ∉ unit.text.toList := by cases unit <;> decide
  have begins := Bound.shows (r := "start") first
  cases stop with
  | none => exact .join isJoin_spaced (.keyword _ word (begins.append .nil)) rfl rfl
  | some b =>
    exact .join isJoin_spaced (.keyword _ word <| .keyword "between" (by decide) <|
      begins.append <| .keyword "and" (by decide) <| Bound.shows (r := "end") last) rfl rfl

theorem With.shown {w : With} (parts : ∀ c ∈ (Node.commonTables w).children, c.2.Shown asked d) :
    (Node.commonTables w).Shown asked d := by
  obtain ⟨recursive, tables⟩ := w
  cases recursive with
  | true =>
    have each := (Shows.each (r := "table") (forall_each.1 parts)).joined isJoin_commaSeparated
    exact .join isJoin_spaced (.keyword "with" (by decide) <| .keyword "recursive" (by decide) each)
      rfl (by rw [Node.marks, With.marks, tablesMarks_eq]; rfl)
  | false =>
    exact .join isJoin_spaced (.listed "with" (by decide) (forall_each.1 parts)) rfl
      (by rw [Node.marks, With.marks, tablesMarks_eq]; rfl)

theorem Fetch.shown {f : Fetch} (parts : ∀ c ∈ (Node.fetch f).children, c.2.Shown asked d) :
    (Node.fetch f).Shown asked d := by
  obtain ⟨position, count, unit⟩ := f
  have word : '?' ∉ position.text.toList := by cases position <;> decide
  have unit' : ∀ word ∈ unit.words, '?' ∉ word.toList := by cases unit <;> decide
  have last : Shows asked [writeWords unit.words] [] :=
    (Shows.keywords unit').joined isJoin_spaced
  cases count with
  | none => exact .join isJoin_spaced (.keyword "fetch" (by decide) <| .keyword _ word last) rfl rfl
  | some e =>
    exact .join isJoin_spaced (.keyword "fetch" (by decide) <| .keyword _ word <|
      .node (parts _ List.mem_cons_self) last) rfl rfl

namespace Node

theorem shown_parts {n : Node} (own : asked → ∀ text ∈ n.ownTexts, '?' ∉ text.toList)
    (parts : ∀ c ∈ n.children, c.2.Shown asked d) : n.Shown asked d := by
  cases n with
  | expr e => exact e.shown own parts
  | query q => exact q.shown parts
  | identifier name =>
    have clear (given : asked) : AllClear [.name name] := by simpa [ownTexts] using own given
    exact .join isJoin_flatten (.words clear rfl .nil) rfl rfl
  | switch s => exact s.shown parts
  | branch b =>
    obtain ⟨key, value⟩ := b
    simp only [children, List.forall_mem_cons] at parts
    obtain ⟨key, value, _⟩ := parts
    exact .join isJoin_spaced (.keyword "when" (by decide) <| .node key <|
      .keyword "then" (by decide) <| .node value .nil) rfl rfl
  | select c => exact c.shown parts
  | selectItem i => exact .join isJoin_flatten (SelectItem.shows parts) rfl (by simp [marks])
  | distinct x => exact x.shown parts
  | fromClause f =>
    obtain ⟨source, joins⟩ := f
    simp only [children, List.forall_mem_cons, forall_each] at parts
    obtain ⟨first, joins⟩ := parts
    exact .join isJoin_spaced (.keyword "from" (by decide) <| .node first <| .each joins) rfl
      (by rw [marks, From.marks, joinsMarks_eq]; rfl)
  | join j => exact j.shown parts
  | source s => exact .join isJoin_flatten (Source.shows parts) rfl (by simp [marks])
  | table ref =>
    simp only [children, List.forall_mem_append, List.forall_mem_cons, forall_each] at parts
    obtain ⟨names, table, _⟩ := parts
    refine .join isJoin_flatten (.qualified (fun given => table.clear given _ List.mem_cons_self) rfl names <|
      .silent (parameters_identifier _) .nil) rfl ?_
    simp [marks, TableRef.marks]
  | sourceAlias a => exact .join isJoin_flatten (SourceAlias.shows parts) rfl (by simp [marks])
  | filter e =>
    exact .join isJoin_spaced (.keyword "where" (by decide) <|
      .node (parts _ List.mem_cons_self) .nil) rfl rfl
  | having e =>
    exact .join isJoin_spaced (.keyword "having" (by decide) <|
      .node (parts _ List.mem_cons_self) .nil) rfl rfl
  | groupBy es =>
    exact .join isJoin_spaced (.listed "group by" (by decide) (forall_each.1 parts)) rfl
      (by rw [marks, valuesMarks, exprsMarks_eq]; rfl)
  | partitionBy es =>
    exact .join isJoin_spaced (.listed "partition by" (by decide) (forall_each.1 parts)) rfl
      (by rw [marks, valuesMarks, exprsMarks_eq]; rfl)
  | orderBy items =>
    exact .join isJoin_spaced (.listed "order by" (by decide) (forall_each.1 parts)) rfl
      (by rw [marks, orderMarks, orderItemsMarks_eq]; rfl)
  | orderItem i =>
    obtain ⟨value, direction, nulls⟩ := i
    exact .join isJoin_spaced (.node (parts _ List.mem_cons_self) <|
      (Shows.direction direction).append (Shows.nulls nulls)) rfl rfl
  | overClause o => exact o.shown parts
  | windowSpec w => exact w.shown parts
  | frame f => exact f.shown parts
  | windowDef w =>
    obtain ⟨name, spec⟩ := w
    simp only [children, List.forall_mem_cons] at parts
    obtain ⟨name, inner, _⟩ := parts
    exact .join isJoin_spaced (.node name <| .keyword "as" (by decide) <|
      .joined isJoin_flatten.inParens <| .node inner .nil) rfl (by simp [marks, WindowDef.marks])
  | windows ws =>
    exact .join isJoin_spaced (.listed "window" (by decide) (forall_each.1 parts)) rfl
      (by rw [marks, windowsMarks, windowDefsMarks_eq]; rfl)
  | commonTables w => exact w.shown parts
  | commonTable t =>
    obtain ⟨header, materialized, query⟩ := t
    simp only [children, List.forall_mem_cons] at parts
    obtain ⟨name, inner, _⟩ := parts
    have query : Shows asked [query.marks d] [("query", .query query)] := .node inner .nil
    exact .join isJoin_spaced (.node name <| .keyword "as" (by decide) <|
      (Shows.materialized materialized).append query.parens) rfl rfl
  | limit l =>
    obtain ⟨limit, offset⟩ := l
    simp only [children, List.forall_mem_append, forall_maybe] at parts
    obtain ⟨first, second⟩ := parts
    exact .join isJoin_clauses ((Shows.keyworded "limit" (by decide) first).append
      (.keyworded "offset" (by decide) second)) rfl rfl
  | fetch f => exact f.shown parts
  | lock mode =>
    have words : ∀ word ∈ "for" :: mode.words, '?' ∉ word.toList := by cases mode <;> decide
    exact .join isJoin_spaced (.keywords words) rfl rfl

/-- By induction on the levels of the tree. -/
theorem shown {n : Node} (clear : asked → n.IsClear) : n.Shown asked d := by
  induction n using children_induction with
  | step n ih =>
    exact shown_parts (fun given => (isClear_iff.1 (clear given)).1) fun c mem =>
      ih c mem fun given => (isClear_iff.1 (clear given)).2 c mem

/-- What is written of a node has its parameters in the order of the walk. -/
theorem parameters_marks (d : Dialect) (n : Node) : Mark.parameters (n.marks d) = n.parameters :=
  (shown False.elim).same.symm

end Node

end SqlQuery
