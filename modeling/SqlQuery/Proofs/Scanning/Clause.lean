import SqlQuery.Proofs.Scanning.Value

/-!
Clauses and queries stand everywhere once the values and queries in them do.
-/

namespace SqlQuery

open Mark Node Child

variable {d : Dialect} [d.Readable] {previous : Option Token} {cs : List Char}

namespace Node.PartsPlaced

variable {n : Node} (h : n.PartsPlaced d)

omit [d.Readable] in
/-- The value before an alias, if it has one. -/
theorem marks_item {i : SelectItem} (all : i.effectiveAlias = i.aliasName) : i.marks d =
    i.aliasName.elim (i.value.marks d) fun name =>
      spaced [i.value.marks d, [.plain "as"], [.name name]] := by
  obtain ⟨value, aliasName⟩ := i
  rw [SelectItem.marks, all]
  cases aliasName <;> rfl

omit [d.Readable] in
theorem marks_source {s : Source} (all : s.effectiveAlias = s.sourceAlias) : s.marks d =
    s.sourceAlias.elim (s.data.marks d) fun a => spaced [s.data.marks d, [.plain "as"], a.marks] := by
  obtain ⟨data, sourceAlias⟩ := s
  rw [Source.marks, all]
  cases sourceAlias <;> rfl

/-- A part with a name after `as`. -/
theorem named_settles {part name : List Mark} (first : Settles d previous part)
    (later : Settles d (some (keywordToken "as")) name) :
    Settles d previous (spaced [part, [.plain "as"], name]) := by
  rw [spaced_cons_cons, spaced_cons_cons, spaced_singleton]
  exact first.then_blank (.keyword_then (by decide) (Keyword.not_extendable (by decide)) later)

theorem alias_settles {a : SourceAlias} (fits : a.Fits) : Anywhere d a.marks := by
  obtain ⟨named, columns⟩ := fits
  unfold SourceAlias.marks
  split
  · exact .name named
  · intro previous clear cs _
    have names : Anywhere d (writeNames a.columns) :=
      .commas (List.forall_mem_map.2 fun name mem => .name (columns name mem))
    exact .append (a := [.name a.name]) (.name named clear (.cons (by decide) (by decide) _))
      ((names _ (.of_ne rfl)).parens cs)

/-- A value after a keyword, if there is one. -/
theorem keyworded_settles {keyword : String} {value : Option Expr} (leads : leadsValues keyword = true)
    (seated : ∀ e ∈ value, e.Seated d) : Everywhere d (keywordedMarks d keyword value) := by
  refine .optional rfl fun e mem => ?_
  rw [keywordedMarks, spaced_cons_cons, spaced_singleton]
  exact .value leads (seated e mem)

include h

theorem item {i : SelectItem} (below : n.Below (.selectItem i)) (follows : i.value.Follows previous) :
    Settles d previous (i.marks d) := by
  obtain ⟨isValue, named, all⟩ := h.fits _ below
  have children := below.children
  simp only [Node.children, List.forall_mem_cons, forall_maybe] at children
  have value := (h.value _ children.1 isValue).settles previous follows
  rw [marks_item all]
  cases found : i.aliasName with
  | none => exact value
  | some name => exact named_settles value (.name (named name found) (.of_ne rfl))

theorem items {is : List SelectItem} (below : ∀ i ∈ is, n.Below (.selectItem i))
    (first : ∀ i ∈ is.head?, i.value.Follows previous)
    (signs : ∀ i ∈ is.tail, i.value.leadsLooseSign = false) :
    Settles d previous (commaSeparated (itemsMarks d is)) := by
  rw [itemsMarks_eq]
  refine .commas _ (fun part head => ?_) fun part mem => ?_
  · rw [List.head?_map] at head
    obtain ⟨i, one, rfl⟩ := Option.map_eq_some_iff.1 head
    exact h.item (below i (List.mem_of_mem_head? one)) (first i one)
  · rw [← List.map_tail] at mem
    obtain ⟨i, inside, rfl⟩ := List.mem_map.1 mem
    exact h.item (below i (List.mem_of_mem_tail inside))
      (Expr.follows_of_operand (signs i inside) rfl rfl fun _ => rfl)

/-- The first item begins like a value. -/
theorem items_open {i : SelectItem} {is : List SelectItem}
    (below : n.Below (.selectItem i))
    (ending : Ending d (commaSeparated (itemsMarks d (i :: is))) cs) :
    i.value.OpensAs (spellAll d (commaSeparated (itemsMarks d (i :: is))) ++ cs) := by
  obtain ⟨isValue, named, all⟩ := h.fits _ below
  have children := below.children
  simp only [Node.children, List.forall_mem_cons, forall_maybe] at children
  have value := h.value _ children.1 isValue
  have item (cs : List Char) (ending : Ending d (i.marks d) cs) :
      i.value.OpensAs (spellAll d (i.marks d) ++ cs) := by
    rw [marks_item all] at ending ⊢
    cases found : i.aliasName with
    | none =>
      rw [found] at ending
      exact value.opens cs ending
    | some name =>
      rw [Option.elim_some, spaced_cons_cons, spellAll_append, List.append_assoc]
      exact value.opens _ (.blank _)
  cases is with
  | nil =>
    rw [itemsMarks, itemsMarks, commaSeparated_singleton] at ending ⊢
    exact item cs ending
  | cons next is =>
    rw [itemsMarks, itemsMarks, commaSeparated_cons_cons, spellAll_append, List.append_assoc]
    exact item _ (.comma _)

theorem selectClause {c : SelectClause} (below : n.Below (.select c)) : Everywhere d (c.marks d) := by
  have legible : ∀ values, c.distinct = some (.on values) →
      ∀ i ∈ c.items.head?, i.value.IsSettled := (h.legible _ below).alone
  have signs := (h.legible _ below).signs
  have nonempty : c.items ≠ [] := h.fits _ below
  have children := below.children
  simp only [Node.children, List.forall_mem_append, forall_each, forall_maybe] at children
  obtain ⟨distinctBelow, itemsBelow⟩ := children
  have select : leadsValues "select" = true := leadsValues_of (by decide)
  obtain ⟨distinct, items⟩ := c
  rcases distinct with _ | _ | ⟨values⟩
  · have signs := List.forall_mem_map.1 signs
    rw [SelectClause.marks, spaced_cons_cons, spaced_singleton]
    exact .keyword_then (leadsValues.word select).1 (leadsValues.word select).2
      (h.items itemsBelow
        (fun i head => leadsValues.follows select (signs i (List.mem_of_mem_head? head)))
        fun i mem => signs i (List.mem_of_mem_tail mem))
  · have signs := List.forall_mem_map.1 signs
    obtain ⟨i, is, rfl⟩ := List.exists_cons_of_ne_nil nonempty
    have complete : Keyword.isComplete "distinct" = true := by decide
    rw [SelectClause.marks, Distinct.marks, spaced_cons_cons, spaced_cons_cons, spaced_singleton]
    refine .keyword_then (leadsValues.word select).1 (leadsValues.word select).2 ?_
    refine .keyword_apart complete (fun cs ending => ?_)
      (h.items itemsBelow
        (fun i head => Expr.follows_of_operand (signs i (List.mem_of_mem_head? head)) rfl rfl
          fun _ => rfl)
        fun i mem => signs i (List.mem_of_mem_tail mem))
    exact (h.items_open (itemsBelow i List.mem_cons_self) ending).alone (by decide)
      fun same => absurd same (by decide)
  · have complete : Keyword.isComplete "distinct on" = true := by decide
    have listed := (distinctBelow _ rfl).children
    simp only [Node.children, Distinct.children, List.forall_mem_cons, List.not_mem_nil,
      false_implies, implies_true, and_true] at listed
    have areValues : AreValues values := h.fits _ (distinctBelow _ rfl)
    have inner : Settles d (some openToken) (commaSeparated (exprsMarks d values)) :=
      Expr.opened_settle (h.list listed areValues.2)
    have marks : SelectClause.marks d ⟨some (.on values), items⟩ = .plain "select" :: .blank ::
        ((.plain "distinct on" :: .blank :: inParens (commaSeparated (exprsMarks d values))) ++
          .blank :: commaSeparated (itemsMarks d items)) := by
      simp [SelectClause.marks, Distinct.marks, spaced_cons_cons]
    rw [marks]
    refine .keyword_then (leadsValues.word select).1 (leadsValues.word select).2 ?_
    refine .then_blank (.keyword_then complete (Keyword.not_extendable (by decide))
      fun cs _ => inner.parens cs) ?_
    rw [lastRead_cons, lastRead_blank, lastRead_inParens]
    exact h.items itemsBelow
      (fun i first => (legible values rfl i first).follows (.of_ne rfl) fun _ => rfl)
      (List.forall_mem_map.1 signs)

theorem data {data : DataSource} (below : n.Below data.node) : Anywhere d (data.marks d) := by
  cases data with
  | table ref =>
    obtain ⟨named, names⟩ := h.fits _ below
    have placed : (Expr.column ⟨ref.namespaces, ref.table⟩).Placed d := Expr.placed_column names
    have sign : (Expr.column ⟨ref.namespaces, ref.table⟩).leadsLooseSign = false := rfl
    have settled : (Expr.column ⟨ref.namespaces, ref.table⟩).IsSettled := by
      refine ⟨rfl, ?_⟩
      have other : ref.table ≠ wildcardName := named
      simp [Expr.leadsStar, Expr.first, ColumnRef.wildcard, other]
    rw [DataSource.marks]
    intro previous clear
    have settles := placed.settles previous
      (settled.follows clear fun loose => absurd loose (by simp [sign]))
    rwa [Expr.marks] at settles
  | subQuery q =>
    rw [DataSource.marks]
    exact (Everywhere.parens (h.query q below _)).anywhere
  | function call =>
    have placed := h.call (h.fits _ below) below.children (h.legible _ below).signs
    have sign : (Expr.function call).leadsLooseSign = false := rfl
    have settled : (Expr.function call).IsSettled := ⟨rfl, rfl⟩
    rw [DataSource.marks]
    intro previous clear
    have settles := placed.settles previous
      (settled.follows clear fun loose => absurd loose (by simp [sign]))
    rwa [Expr.marks] at settles

theorem source {s : Source} (below : n.Below (.source s)) : Anywhere d (s.marks d) := by
  have children := below.children
  simp only [Node.children, List.forall_mem_cons, forall_maybe] at children
  have data := h.data children.1
  rw [marks_source (h.fits _ below)]
  cases found : s.sourceAlias with
  | none => exact data
  | some a =>
    intro previous clear
    have fits : a.Fits := h.fits _ (children.2 a found)
    exact named_settles (data previous clear) (alias_settles fits _ (.of_ne rfl))

theorem join {j : Join} (below : n.Below (.join j)) : Everywhere d (j.marks d) := by
  obtain ⟨isKind, fits⟩ := h.fits _ below
  obtain ⟨kind, lateral, source, condition⟩ := j
  have children := below.children
  simp only [Node.children, List.forall_mem_append, List.forall_mem_cons, List.not_mem_nil,
    false_implies, implies_true, and_true] at children
  obtain ⟨⟨_, sourceBelow⟩, conditionBelow⟩ := children
  have kinds : ∀ kind ∈ joinKinds, kind ∉ Keyword.beginnings ∧
      (keywordToken kind).isCommand "array" = false := by
    decide +kernel
  have complete := joinKinds_complete kind isKind
  have trim := Keyword.trim_of_complete complete
  obtain ⟨single, clear⟩ := kinds kind isKind
  have joined : Anywhere d (spaced (source.marks d ::
      condition.toList.map (JoinCondition.marks d))) := by
    refine .spaced (h.source sourceBelow) fun part mem => ?_
    obtain ⟨c, found, rfl⟩ := List.mem_map.1 mem
    obtain rfl : condition = some c := Option.mem_toList.1 found
    cases c with
    | on e =>
      have seated := h.seated below (by simp [Node.awaited, Node.children, JoinCondition.children,
        value?]) (fits _ rfl)
      rw [JoinCondition.marks, spaced_cons_cons, spaced_singleton]
      exact .value (leadsValues_of (by decide)) seated
    | columns names =>
      obtain ⟨_, named⟩ := fits _ rfl
      have listed : Anywhere d (writeNames names) :=
        .commas (List.forall_mem_map.2 fun name mem => .name (named name mem))
      rw [JoinCondition.marks, spaced_cons_cons, spaced_singleton]
      exact .keyword_then (by decide) (Keyword.not_extendable (by decide))
        fun cs _ => (listed _ (.of_ne rfl)).parens cs
  have marks : Join.marks d ⟨kind, lateral, source, condition⟩ = .plain kind :: .blank ::
      if lateral then .plain "lateral" :: .blank ::
        spaced (source.marks d :: condition.toList.map (JoinCondition.marks d))
      else spaced (source.marks d :: condition.toList.map (JoinCondition.marks d)) := by
    cases condition <;> cases lateral <;>
      simp [Join.marks, rawMark, trim, optionalWord, spaced_cons_cons]
  rw [marks]
  refine .keyword_then complete (Keyword.not_extendable single) ?_
  split
  · exact .keyword_then (by decide) (Keyword.not_extendable (by decide)) (joined _ (.of_ne rfl))
  · exact joined _ (.of_ne clear)

theorem fromClause {f : From} (below : n.Below (.fromClause f)) : Everywhere d (f.marks d) := by
  have children := below.children
  simp only [Node.children, List.forall_mem_cons, forall_each] at children
  obtain ⟨source, joins⟩ := f
  have tables : Anywhere d (spaced (source.marks d :: joinsMarks d joins)) := by
    refine .spaced (h.source children.1) ?_
    rw [joinsMarks_eq]
    exact List.forall_mem_map.2 fun j mem => h.join (children.2 j mem)
  rw [From.marks, spaced_cons_cons]
  exact .keyword_then (by decide) (Keyword.not_extendable (by decide)) (tables _ (.of_ne rfl))

theorem windowDefs {ws : List WindowDef} (below : n.Below (.windows ws)) :
    Everywhere d (windowsMarks d (some ws)) := by
  have defs := below.children
  simp only [Node.children, forall_each] at defs
  have listed : Anywhere d (commaSeparated (windowDefsMarks d ws)) := by
    rw [windowDefsMarks_eq]
    refine .commas (List.forall_mem_map.2 fun w mem previous clear => ?_)
    have children := (defs w mem).children
    simp only [Node.children, List.forall_mem_cons, List.not_mem_nil, false_implies, implies_true,
      and_true] at children
    obtain ⟨named, _⟩ := h.fits _ (defs w mem)
    have spec := h.spec children.2
    obtain ⟨name, spec'⟩ := w
    rw [WindowDef.marks]
    exact named_settles (.name named clear) fun cs _ => (spec _).parens cs
  rw [windowsMarks, spaced_cons_cons, spaced_singleton]
  exact .keyword_then (by decide) (Keyword.not_extendable (by decide)) (listed _ (.of_ne rfl))

theorem limit {l : Limit} (below : n.Below (.limit l)) : Everywhere d (l.marks d) := by
  obtain ⟨_, limits, offsets⟩ := h.fits _ below
  obtain ⟨limit, offset⟩ := l
  have awaited : (Node.limit ⟨limit, offset⟩).awaited = limit.toList ++ offset.toList := by
    rw [← values_maybe "limit", ← values_maybe "offset", ← List.filterMap_append]
    rfl
  have first (e : Expr) (mem : e ∈ limit) : e.Seated d :=
    h.seated below (awaited ▸ List.mem_append_left _ (Option.mem_toList.2 mem)) (limits e mem)
  have second (e : Expr) (mem : e ∈ offset) : e.Seated d :=
    h.seated below (awaited ▸ List.mem_append_right _ (Option.mem_toList.2 mem)) (offsets e mem)
  rw [Limit.marks]
  refine .clauses ?_
  simp only [List.forall_mem_cons]
  exact ⟨keyworded_settles (leadsValues_of (by decide)) first,
    keyworded_settles (leadsValues_of (by decide)) second, by simp⟩

/-- The words of a fetch are ordinary names to a sign after them. -/
theorem fetch {f : Fetch} (below : n.Below (.fetch f)) : Everywhere d (f.marks d) := by
  obtain ⟨isValue, _⟩ := h.fits _ below
  have legible : ∀ e ∈ f.count, e.IsSettled := (h.legible _ below).alone
  have children := below.children
  simp only [Node.children, forall_maybe] at children
  obtain ⟨position, count, unit⟩ := f
  have read : position.text ∈ contextWords ∧
      (Mark.plain position.text).tokens = [wordToken position.text] := by
    cases position <;> decide
  have words : ∀ word ∈ unit.words, Everywhere d [.plain word] := by
    have known : ∀ word ∈ unit.words, word ∈ contextWords ∨ word = "with" := by
      cases unit <;> decide
    intro word mem
    rcases known word mem with known | rfl
    · exact .word known
    · exact .keyword (by decide) (Keyword.not_extendable (by decide))
  have units : Everywhere d (writeWords unit.words) := .words words
  have first : Everywhere d [.plain position.text] := .word read.1
  intro previous
  cases count with
  | none =>
    rw [Fetch.marks, spaced_cons_cons]
    exact .keyword_then (by decide) (Keyword.not_extendable (by decide))
      (.spaced (first _) (by simpa using units))
  | some e =>
    have value : Settles d (some (wordToken position.text)) (e.marks d) :=
      (h.value e (children e rfl) (isValue e rfl).1).settles _
        ((legible e rfl).follows (.of_ne rfl) fun _ => rfl)
    have counted : Settles d (some (keywordToken "fetch"))
        ([Mark.plain position.text] ++ .blank :: spaced [e.marks d, writeWords unit.words]) := by
      refine (first _).then_blank ?_
      rw [lastRead_of_tokens read.2]
      exact .spaced value (by simpa using units)
    rw [Fetch.marks, spaced_cons_cons, spaced_cons_cons]
    exact .keyword_then (by decide) (Keyword.not_extendable (by decide)) counted

omit h [d.Readable] in
theorem lock_settles (mode : LockMode) [d.Readable] : Everywhere d (lockMarks (some mode)) := by
  have known : ∀ word ∈ "for" :: mode.words, word ∈ contextWords ∨ word = "for" := by
    cases mode <;> decide
  refine .words fun word mem => ?_
  rcases known word mem with known | rfl
  · exact .word known
  · exact .keyword (by decide) (Keyword.not_extendable (by decide))

theorem commonTable {t : CommonTable} (below : n.Below (.commonTable t)) :
    Anywhere d (t.marks d) := by
  have children := below.children
  simp only [Node.children, List.forall_mem_cons, List.not_mem_nil, false_implies, implies_true,
    and_true] at children
  have query := h.query _ children.2
  obtain ⟨header, materialized, q⟩ := t
  rw [CommonTable.marks, List.append_assoc, List.cons_append, List.singleton_append]
  refine .spaced (alias_settles (h.fits _ children.1)) fun part mem => ?_
  simp only [List.mem_cons, List.mem_append, List.not_mem_nil, or_false] at mem
  rcases mem with rfl | inMaterialized | rfl
  · exact .keyword (by decide) (Keyword.not_extendable (by decide))
  · rcases materialized with _ | _ | _
    · cases inMaterialized
    all_goals
      obtain rfl := List.mem_singleton.1 inMaterialized
      exact .keyword (by decide) (Keyword.not_extendable (by decide))
  · exact .parens (query _)

theorem commonTables {w : With} (below : n.Below (.commonTables w)) : Everywhere d (w.marks d) := by
  have tables := below.children
  simp only [Node.children, forall_each] at tables
  obtain ⟨recursive, ts⟩ := w
  have listed : Anywhere d (commaSeparated (tablesMarks d ts)) := by
    rw [tablesMarks_eq]
    exact .commas (List.forall_mem_map.2 fun t mem => h.commonTable (tables t mem))
  cases recursive with
  | false =>
    have marks : With.marks d ⟨false, ts⟩ =
        .plain "with" :: .blank :: commaSeparated (tablesMarks d ts) := by
      simp [With.marks, optionalWord, spaced_cons_cons]
    rw [marks]
    exact .keyword_then (by decide) (Keyword.not_extendable (by decide)) (listed _ (.of_ne rfl))
  | true =>
    have marks : With.marks d ⟨true, ts⟩ = .plain "with" :: .blank :: .plain "recursive" ::
        .blank :: commaSeparated (tablesMarks d ts) := by
      simp [With.marks, optionalWord, spaced_cons_cons]
    rw [marks]
    exact .keyword_then (by decide) (Keyword.not_extendable (by decide))
      (.keyword_then (by decide) (Keyword.not_extendable (by decide)) (listed _ (.of_ne rfl)))

theorem select {s : Select} (fits : (Query.simple s).Fits) (below : ∀ c ∈ s.children, n.Below c.2) :
    Everywhere d (s.marks d) := by
  obtain ⟨condition, groupBy, having, _, _⟩ := fits
  simp only [Select.children, List.forall_mem_append, List.forall_mem_cons, forall_maybe,
    List.not_mem_nil, false_implies, implies_true, and_true] at below
  obtain ⟨⟨⟨⟨⟨⟨⟨⟨⟨⟨tables, clause⟩, source⟩, filter⟩, groups⟩, group⟩, window⟩, order⟩, limit⟩, fetch⟩, _⟩ :=
    below
  obtain ⟨commonTables, clause', from', condition', groups', having', windows, ordered, limits,
    fetched, mode⟩ := s
  have conditioned {m : Node} {e : Expr} (below : n.Below m) (awaited : m.awaited = [e])
      (isValue : e.isValue) : e.Seated d := h.seated below (by simp [awaited]) isValue
  rw [Select.marks]
  refine .clauses ?_
  simp only [List.forall_mem_cons]
  refine ⟨.optional rfl fun w mem => h.commonTables (tables w mem), h.selectClause clause,
    .optional rfl fun f mem => h.fromClause (source f mem),
    keyworded_settles (leadsValues_of (by decide))
      fun e mem => conditioned (filter e mem) rfl (condition e mem),
    .optional rfl fun es mem => ?_,
    keyworded_settles (leadsValues_of (by decide))
      fun e mem => conditioned (group e mem) rfl (having e mem),
    .optional rfl fun ws mem => h.windowDefs (window ws mem),
    .optional rfl fun is mem => h.orderBy (order is mem),
    .optional rfl fun l mem => h.limit (limit l mem),
    .optional rfl fun f mem => h.fetch (fetch f mem),
    .optional rfl fun mode _ => lock_settles mode, by simp⟩
  exact .values (leadsValues_of (by decide))
    (h.values (groups es mem) (values_each _ es) (groupBy es mem).2)

end Node.PartsPlaced

namespace Query

omit [d.Readable] in
theorem spaced_begins (part : List Mark) (parts : List (List Mark)) :
    ∃ more, spaced (part :: parts) = part ++ more := by
  cases parts with
  | nil => exact ⟨[], by simp⟩
  | cons next parts => exact ⟨_, spaced_cons_cons part next parts⟩

omit [d.Readable] in
/-- What stands to the right of a set operation begins with a keyword of its own. -/
theorem term_marks {q : Query} (isTerm : q.IsTerm) :
    ∃ keyword ∈ ["select", "values"], ∃ more, q.marks d = .plain keyword :: .blank :: more := by
  cases q with
  | simple s =>
    obtain ⟨w, ⟨distinct, items⟩, f, e, es, g, ws, is, l, x, mode⟩ := s
    obtain rfl : w = none := by simpa [IsTerm] using isTerm
    have clause : ∃ more, SelectClause.marks d ⟨distinct, items⟩ =
        .plain "select" :: .blank :: more := by
      cases distinct with
      | none => exact ⟨_, by rw [SelectClause.marks, spaced_cons_cons]; rfl⟩
      | some x => exact ⟨_, by rw [SelectClause.marks, spaced_cons_cons]; rfl⟩
    obtain ⟨more, clause⟩ := clause
    refine ⟨"select", by decide, ?_⟩
    rw [Query.marks, Select.marks, clauseMarks, withMarks, clause]
    obtain ⟨others, split⟩ := spaced_begins (.plain "select" :: .blank :: more) ([fromMarks d f,
      keywordedMarks d "where" e, valuesMarks d "group by" es, keywordedMarks d "having" g,
      windowsMarks d ws, orderMarks d is, limitMarks d l, fetchMarks d x,
      lockMarks mode].filter fun part => !part.isEmpty)
    exact ⟨more ++ others, split⟩
  | values rows => exact ⟨"values", by decide, _, by rw [Query.marks, spaced_cons_cons]; rfl⟩
  | binary left operator right => exact isTerm.elim

/-- No set operator goes on with the keyword of what it combines. -/
theorem setOperators_apart : ∀ operator ∈ Grammar.setOperators, ∀ keyword ∈ ["select", "values"],
    isWordText keyword.toList = true ∧ Text.lower keyword = keyword ∧
      Keyword.isComplete (operator ++ " " ++ keyword) = false ∧
        operator ++ " " ++ keyword ∉ Keyword.beginnings := by
  decide +kernel

omit [d.Readable] in
theorem setOperator_alone {operator : String} {q : Query} (mem : operator ∈ Grammar.setOperators)
    (isTerm : q.IsTerm) (cs : List Char) :
    Lexeme.Name.longerKeyword? operator (' ' :: (spellAll d (q.marks d) ++ cs)) = none := by
  obtain ⟨keyword, known, more, marks⟩ := term_marks (d := d) isTerm
  obtain ⟨isWord, lower, complete, extendable⟩ := setOperators_apart operator mem keyword known
  have word := isWordText_of isWord
  have spelled : spellAll d (q.marks d) ++ cs =
      keyword.toList ++ (' ' :: (spellAll d more ++ cs)) := by
    rw [marks, spellAll_cons, spellAll_cons, List.append_assoc]
    rfl
  have first := Expr.OpensAs.firstWord_append word.chars
    (.cons (by decide) (spellAll d more ++ cs) : Boundary (' ' :: (spellAll d more ++ cs)))
  have same : String.ofList (Text.lowerChars keyword.toList) = keyword := lower
  rw [same] at first
  rw [spelled]
  obtain ⟨c, rest, chars, _⟩ := word.start
  rw [chars] at first ⊢
  have blank : Text.isBlank c = false := by
    have isChar := word.chars c (by simp [chars])
    simp only [Text.isWordChar, Text.isDelimiter, Bool.not_eq_true', Bool.or_eq_false_iff] at isChar
    exact isChar.1.1
  refine Lexeme.Name.longerKeyword?_apart blank ?_
  rintro _ rfl
  change Lexeme.Name.firstWord (c :: rest.append _) = _ at first
  rw [first]
  exact ⟨complete, Keyword.not_extendable extendable⟩

/-- Every query stands everywhere once what it holds does. -/
theorem placed {q : Query} (h : (Node.query q).PartsPlaced d) (fits : q.Fits) :
    Everywhere d (q.marks d) := by
  have children : ∀ c ∈ q.children, Node.Below (.query q) c.2 := fun c mem => .child _ mem
  cases q with
  | simple s =>
    rw [Query.marks]
    exact h.select fits children
  | values rows =>
    simp only [Query.children, forall_each] at children
    have values : leadsValues "values" = true := leadsValues_of (by decide)
    have each : Anywhere d (commaSeparated (rowsMarks d rows)) := by
      rw [rowsMarks_eq]
      refine .commas (List.forall_mem_map.2 fun row mem => ?_)
      have each := h.values (children row mem) (values_each _ row) (fits.2 row mem).2
      rw [Expr.marks]
      exact (Everywhere.parens (Expr.opened_settle each)).anywhere
    rw [Query.marks, spaced_cons_cons, spaced_singleton]
    exact .keyword_then (by decide) (Keyword.not_extendable (by decide)) (each _ (.of_ne rfl))
  | binary left operator right =>
    simp only [Query.children, List.forall_mem_cons, List.not_mem_nil, false_implies, implies_true,
      and_true] at children
    obtain ⟨isOperator, isTerm⟩ := fits
    have complete := setOperators_complete operator isOperator
    have trim := Keyword.trim_of_complete complete
    have first := h.query left children.1
    have second := h.query right children.2.2
    have marks : (Query.binary left operator right).marks d =
        left.marks d ++ .blank :: .plain operator :: .blank :: right.marks d := by
      simp [Query.marks, spaced_cons_cons, rawMark, trim]
    rw [marks]
    intro previous
    exact (first previous).then_blank (.keyword_apart complete
      (fun cs _ => setOperator_alone isOperator isTerm cs) (second _))

end Query

end SqlQuery
