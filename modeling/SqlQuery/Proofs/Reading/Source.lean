import SqlQuery.Proofs.Reading.Begin

/-!
Select items, sources and joins are read back.
-/

namespace SqlQuery

/-- A keyword with what follows it, if there is anything. -/
def optional {α : Type} (keyword : String) (f : α → List Token) : Option α → List Token
  | none => []
  | some a => keywordToken keyword :: f a

theorem Rule.Gives.optional {α : Type} {keyword : String} {item : Rule α} {f : α → List Token}
    {o : Option α} {rest : List Token} (h : ∀ a ∈ o, item.Gives (f a ++ rest) a rest)
    (ended : Lacks (fun t => t.isCommand keyword) rest) :
    (after (eatKeyword keyword) item).Gives (SqlQuery.optional keyword f o ++ rest) o rest := by
  cases o with
  | none => exact after_none (eat_false ended)
  | some a =>
    exact after_some (eat_true (by simp [keywordToken, Token.isCommand])) (h a rfl)

theorem HeadIn.optional {α : Type} {next rest : List Token} (follow : HeadIn next rest)
    (keyword : String) (f : α → List Token) (o : Option α) :
    HeadIn (keywordToken keyword :: next) (SqlQuery.optional keyword f o ++ rest) := by
  cases o with
  | none => exact follow.mono fun t mem => List.mem_cons_of_mem _ mem
  | some a => exact .cons List.mem_cons_self _

/-- What may follow a term of a query. -/
def termEnds : List Token := endTokens ++ setTokens

/-- The keywords of the clauses after the select list, in order. -/
def clauseTokens : List Token :=
  ["from", "where", "group by", "having", "window", "order by", "limit", "offset", "fetch",
    "for"].map keywordToken

/-- What may follow when so many of these clauses are over. -/
def laterTokens (n : Nat) : List Token := clauseTokens.drop n ++ termEnds

/-- What may follow a join. -/
def joinTokens : List Token := joinKinds.map keywordToken ++ clauseTokens.drop 1 ++ termEnds

/-- What may follow a source. -/
def sourceTokens : List Token := ["on", "using"].map keywordToken ++ joinTokens

/-- No value goes on with it, and no alias begins with it. -/
def Token.breaks (t : Token) : Bool :=
  !t.extendsValue && (Power.binary? t).isNone && !isName t && !t.isCommand "as"

theorem breaks_item : ∀ t ∈ commaToken :: laterTokens 0, t.breaks = true := by
  decide +kernel

theorem breaks_source : ∀ t ∈ sourceTokens, t.breaks = true := by
  decide +kernel

/-- They begin with such a token, if there are any. -/
def Breaks (rest : List Token) : Prop := ∀ t ∈ rest.head?, t.breaks = true

theorem HeadIn.breaks {next rest : List Token} (h : HeadIn next rest)
    (plain : ∀ t ∈ next, t.breaks = true) : Breaks rest :=
  fun t head => plain t (h t head)

namespace Breaks

variable {rest : List Token}

theorem closed (h : Breaks rest) (bound : Nat) : Closed bound rest := by
  intro t head
  have plain := h t head
  simp only [Token.breaks, Bool.and_eq_true, Bool.not_eq_true', Option.isNone_iff_eq_none] at plain
  exact ⟨plain.1.1.1, by simp [plain.1.1.2]⟩

theorem lacks_name (h : Breaks rest) : Rule.Lacks isName rest := by
  intro t head
  have plain := h t head
  simp only [Token.breaks, Bool.and_eq_true, Bool.not_eq_true'] at plain
  exact plain.1.2

theorem lacks_as (h : Breaks rest) : Rule.Lacks (fun t => t.isCommand "as") rest := by
  intro t head
  have plain := h t head
  simp only [Token.breaks, Bool.and_eq_true, Bool.not_eq_true'] at plain
  exact plain.2

/-- An alias after a value or a source leaves it closed. -/
theorem closed_optional {α : Type} {f : α → List Token} {o : Option α} (h : Breaks rest)
    (bound : Nat) : Closed bound (SqlQuery.optional "as" f o ++ rest) := by
  cases o with
  | none => exact h.closed bound
  | some a => exact Closed.of_end (by decide) rfl

end Breaks

namespace Grammar

open Rule

variable {d : Dialect} {scope : Scope} {level : Level} {rest : List Token}

theorem name_gives {text : String} (named : IsName text) :
    name.Gives (wordToken text :: rest) text rest := by
  have plain : isName (wordToken text) = true := by
    simpa [isName, wordToken, IsName, wildcardName] using named
  exact Gives.expect (by rw [if_pos plain]; rfl)

theorem names_give {names : List String} (some : names ≠ []) (named : ∀ n ∈ names, IsName n) :
    nameList.Gives (openToken :: (commaTokens (names.map fun n => [wordToken n]) ++
      closeToken :: rest)) names rest := by
  refine (Gives.require rfl).bind ?_
  refine (Gives.commaList (fun _ => True) some (fun n mem ts _ => ?_) (fun _ => trivial)
    trivial (lacks_head rfl)).bind ((Gives.require rfl).bind (Gives.ret _ _))
  exact name_gives (named n mem)

theorem read_writeNames (names : List String) : Mark.read (writeNames names) =
    commaTokens (names.map fun n => [wordToken n]) := by
  simp [writeNames, Function.comp_def]

theorem columnNames_give {names : List String} (named : ∀ n ∈ names, IsName n)
    (follow : Lacks (isKind .openParen) rest) : columnNames.Gives
      (Mark.read (if names.isEmpty then [] else inParens (writeNames names)) ++ rest) names
        rest := by
  cases names with
  | nil => exact Gives.no (Gives.look_false follow) (Gives.ret _ _)
  | cons n ns =>
    have tokens : Mark.read (if (n :: ns).isEmpty then [] else inParens (writeNames (n :: ns))) ++
        rest = openToken :: (commaTokens ((n :: ns).map fun n => [wordToken n]) ++
          closeToken :: rest) := by
      rw [if_neg (by simp)]
      simp [read_writeNames]
    rw [tokens]
    exact Gives.yes (Gives.look_true rfl) (names_give (by simp) named)

theorem tokens_alias (a : SourceAlias) : Mark.read a.marks = wordToken a.name ::
    Mark.read (if a.columns.isEmpty then [] else inParens (writeNames a.columns)) := by
  unfold SourceAlias.marks
  split <;> simp

/-- An item with its alias. -/
theorem tokens_item {i : SelectItem} (all : i.effectiveAlias = i.aliasName) :
    Mark.read (i.marks d) =
      i.value.tokens d ++ optional "as" (fun name => [wordToken name]) i.aliasName := by
  obtain ⟨value, aliasName⟩ := i
  have as : (Mark.plain "as").tokens = [keywordToken "as"] := by decide
  rw [SelectItem.marks, all]
  cases aliasName <;> simp [optional, as, Expr.tokens]

theorem selectItem_gives {i : SelectItem} (value : level.ReadsValue d i.value)
    (named : ∀ name ∈ i.aliasName, IsName name) (all : i.effectiveAlias = i.aliasName)
    (breaks : Breaks rest) : (selectItem level).Gives (Mark.read (i.marks d) ++ rest) i rest := by
  rw [tokens_item all]
  obtain ⟨value, aliasName⟩ := i
  rw [List.append_assoc]
  refine (value.whole (breaks.closed_optional 0)).bind ?_
  cases aliasName with
  | none =>
    refine (Gives.eat_false breaks.lacks_as).bind ((Gives.look_false breaks.lacks_name).bind ?_)
    exact Gives.iteFalse (by simp) (Gives.ret _ _)
  | some text =>
    refine (Gives.eat_true (t := keywordToken "as") (by decide)).bind ((Gives.look 0 _ _).bind ?_)
    exact Gives.iteTrue (by simp) ((name_gives (named text rfl)).bind (Gives.ret _ _))

/-- What the items of a select list are read as. -/
structure ItemsRead (d : Dialect) (level : Level) (is : List SelectItem) : Prop where
  value : ∀ i ∈ is, level.ReadsValue d i.value
  begins : ∀ i ∈ is, i.value.Begins d
  named : ∀ i ∈ is, ∀ name ∈ i.aliasName, IsName name
  all : ∀ i ∈ is, i.effectiveAlias = i.aliasName
  some : is ≠ []

theorem items_give {is : List SelectItem} (h : ItemsRead d level is)
    (follow : HeadIn (laterTokens 0) rest) : (commaList (selectItem level)).Gives
      (Mark.read (commaSeparated (itemsMarks d is)) ++ rest) is rest := by
  have tokens : Mark.read (commaSeparated (itemsMarks d is)) =
      commaTokens (is.map fun i => Mark.read (i.marks d)) := by
    simp [itemsMarks_eq, Function.comp_def]
  rw [tokens]
  have items : HeadIn (commaToken :: laterTokens 0) rest :=
    follow.mono fun t mem => List.mem_cons_of_mem _ mem
  refine Gives.commaList _ h.some (fun i mem ts follow => ?_) (fun ts => .cons List.mem_cons_self ts)
    items (follow.lacks (by decide))
  exact selectItem_gives (h.value i mem) (h.named i mem) (h.all i mem) (follow.breaks breaks_item)

/-- No keyword of `distinct` stands where the items begin. -/
theorem items_begin {is : List SelectItem} (h : ItemsRead d level is) {p : Token → Bool}
    (plain : ∀ t, t.opensValue = true → p t = false) (ts : List Token) :
    Lacks p (Mark.read (commaSeparated (itemsMarks d is)) ++ ts) := by
  obtain ⟨i, is, rfl⟩ := List.exists_cons_of_ne_nil h.some
  have tokens : Mark.read (commaSeparated (itemsMarks d (i :: is))) ++ ts = i.value.tokens d ++
      (optional "as" (fun name => [wordToken name]) i.aliasName ++
        ((itemsMarks d is).map Mark.read).flatMap (commaToken :: ·) ++ ts) := by
    simp [itemsMarks, commaTokens, tokens_item (h.all i List.mem_cons_self)]
  rw [tokens]
  exact lacks_of_begins (h.begins i List.mem_cons_self) plain

def distinctTokens (d : Dialect) : Option Distinct → List Token
  | none => []
  | some distinct => Mark.read (distinct.marks d)

theorem distinct_gives {distinct : Option Distinct} {is : List SelectItem} {ts : List Token}
    (values : ∀ es, distinct = some (.on es) → AreValues es ∧ ∀ e ∈ es, level.ReadsValue d e)
    (h : ItemsRead d level is) : (Grammar.distinct level).Gives
      (distinctTokens d distinct ++ (Mark.read (commaSeparated (itemsMarks d is)) ++ ts)) distinct
        (Mark.read (commaSeparated (itemsMarks d is)) ++ ts) := by
  have lacks (word : String) (other : word ∉ Token.valueKeywords) :
      Lacks (fun t => t.isCommand word) (Mark.read (commaSeparated (itemsMarks d is)) ++ ts) :=
    items_begin h (fun t opens => Token.not_command_of_opensValue opens other) ts
  match distinct with
  | none =>
    refine Gives.no (Gives.eat_false (lacks "distinct on" (by decide))) ?_
    refine Gives.no (Gives.eat_false (lacks "distinct" (by decide))) ?_
    exact (Gives.eat_false (lacks "all" (by decide))).bind (Gives.ret _ _)
  | some .rows =>
    have keyword : (Mark.plain "distinct").tokens = [keywordToken "distinct"] := by decide
    simp only [distinctTokens, Distinct.marks, Mark.read_cons, keyword, Mark.read_nil,
      List.append_nil, List.cons_append, List.nil_append]
    refine Gives.no (Gives.eat_false (lacks_head (by decide))) ?_
    exact Gives.yes (Gives.eat_true (by decide)) (Gives.ret _ _)
  | some (.on es) =>
    obtain ⟨⟨some, _⟩, reads⟩ := values es rfl
    have keyword : (Mark.plain "distinct on").tokens = [keywordToken "distinct on"] := by decide
    have tokens (more : List Token) : distinctTokens d (Option.some (.on es)) ++ more =
        keywordToken "distinct on" :: openToken ::
          (commaTokens (es.map (Expr.tokens d)) ++ closeToken :: more) := by
      simp [distinctTokens, Distinct.marks, keyword, read_exprs]
    rw [tokens]
    refine Gives.yes (Gives.eat_true (by decide)) ((Gives.require rfl).bind ?_)
    refine (values_give some reads (closed_close 0 _) (lacks_head rfl)).bind ?_
    exact (Gives.require rfl).bind (Gives.ret _ _)

theorem selectClause_gives {c : SelectClause}
    (values : ∀ es, c.distinct = some (.on es) → AreValues es ∧ ∀ e ∈ es, level.ReadsValue d e)
    (h : ItemsRead d level c.items) (follow : HeadIn (laterTokens 0) rest) :
    (selectClause level).Gives (Mark.read (c.marks d) ++ rest) c rest := by
  obtain ⟨distinct, items⟩ := c
  have keyword : (Mark.plain "select").tokens = [keywordToken "select"] := by decide
  have tokens : Mark.read (SelectClause.marks d ⟨distinct, items⟩) ++ rest =
      keywordToken "select" :: (distinctTokens d distinct ++
        (Mark.read (commaSeparated (itemsMarks d items)) ++ rest)) := by
    cases distinct <;> simp [SelectClause.marks, distinctTokens, keyword]
  rw [tokens]
  refine (Gives.require (by decide)).bind ((distinct_gives values h).bind ?_)
  exact (items_give h follow).bind (Gives.ret _ _)

theorem dotted_eq (namespaces : List String) (name : String) : ∃ first others,
    namespaces ++ [name] = first :: others ∧ dotted namespaces ++ [wordToken name] =
      wordToken first :: others.flatMap fun n => [dotToken, wordToken n] := by
  induction namespaces with
  | nil => exact ⟨name, [], rfl, rfl⟩
  | cons n ns ih =>
    obtain ⟨first, others, names, tokens⟩ := ih
    refine ⟨n, first :: others, by rw [List.cons_append, names], ?_⟩
    have split : dotted (n :: ns) ++ [wordToken name] =
        wordToken n :: dotToken :: (dotted ns ++ [wordToken name]) := by simp [dotted]
    rw [split, tokens]
    simp

theorem qualifiedName_gives {namespaces : List String} {table : String}
    (names : ∀ n ∈ namespaces, IsName n) (named : IsName table)
    (follow : Lacks (isKind .dot) rest) : qualifiedName.Gives
      (dotted namespaces ++ wordToken table :: rest) (namespaces ++ [table]) rest := by
  obtain ⟨first, others, list, tokens⟩ := dotted_eq namespaces table
  have each : ∀ n ∈ first :: others, IsName n := by
    rw [← list]
    simpa [or_imp, forall_and] using ⟨names, named⟩
  have split : dotted namespaces ++ wordToken table :: rest =
      wordToken first :: (others.flatMap (fun n => [dotToken, wordToken n]) ++ rest) := by
    rw [List.append_cons, tokens, List.cons_append]
  have more : Yielding (after (eatKind .dot) name)
      (others.flatMap (fun n => [dotToken, wordToken n]) ++ rest) others rest := by
    refine .of_each (fun _ => True) (by simp) (fun n mem ts _ => ?_)
      (fun _ _ _ => trivial) trivial (Gives.after_none (Gives.eat_false follow))
    exact Gives.after_some (Gives.eat_true rfl) (name_gives (each n (List.mem_cons_of_mem _ mem)))
  rw [split, list]
  refine (name_gives (each first List.mem_cons_self)).bind ?_
  exact more.many.bind (Gives.ret _ _)

/-- What a source holds is read one level deeper, but the name of a table is not. -/
inductive DataReads (d : Dialect) (scope : Scope) : DataSource → Prop
  | table {ref : TableRef} (named : IsName ref.table) (names : ∀ n ∈ ref.namespaces, IsName n) :
      DataReads d scope (.table ref)
  | query {q : Query} {level : Level} (inside : scope.inside = some level)
      (reads : level.ReadsQuery d q) : DataReads d scope (.subQuery q)
  | function {call : FunctionCall} (reads : CallReads d scope call) :
      DataReads d scope (.function call)

theorem dataSource_gives {data : DataSource} (h : DataReads d scope data)
    (closed : Closed Power.unbounded rest) :
    (dataSource scope).Gives (Mark.read (data.marks d) ++ rest) data rest := by
  cases h with
  | @table ref named names =>
    have dot : Lacks (isKind .dot) rest := lacks_of_closed closed not_dot_of_extends
    have tokens : Mark.read ((DataSource.table ref).marks d) ++ rest =
        dotted ref.namespaces ++ wordToken ref.table :: rest := by
      simp [DataSource.marks, TableRef.marks, Mark.read_qualify]
    have opening : Lacks (isKind .openParen) (dotted ref.namespaces ++ wordToken ref.table :: rest) := by
      cases ref.namespaces <;> exact lacks_head rfl
    rw [tokens]
    refine Gives.no (Gives.eat_false opening) ((qualifiedName_gives names named dot).bind ?_)
    simp only [List.dropLast_concat, List.getLastD_concat]
    have plain : Lacks (isKind .openParen) rest := lacks_of_closed closed not_open_of_extends
    exact Gives.no (Gives.look_false plain) (Gives.ret _ _)
  | @query q level inside reads =>
    have tokens : Mark.read ((DataSource.subQuery q).marks d) ++ rest =
        openToken :: (q.tokens d ++ closeToken :: rest) := by
      simp [DataSource.marks, Query.tokens]
    rw [tokens]
    refine Gives.yes (Gives.eat_true rfl) ?_
    exact (Gives.enter inside (nestedQuery_gives reads)).map _
  | @function call reads =>
    obtain ⟨plain, named, names, _⟩ := reads.fits
    have tokens : Mark.read ((DataSource.function call).marks d) ++ rest =
        dotted call.namespaces ++ wordToken call.name :: (openToken ::
          (Mark.read (argumentMarks d call.argument) ++
            closeToken :: (Mark.read (windowMarks d call.window) ++ rest))) := by
      simp [DataSource.marks, tokens_call call plain]
    have opening (ts : List Token) :
        Lacks (isKind .openParen) (dotted call.namespaces ++ wordToken call.name :: ts) := by
      cases call.namespaces <;> exact lacks_head rfl
    rw [tokens]
    refine Gives.no (Gives.eat_false (opening _)) ?_
    refine (qualifiedName_gives names named (lacks_head rfl)).bind ?_
    simp only [List.dropLast_concat, List.getLastD_concat]
    exact Gives.yes (Gives.look_true rfl) ((functionCall_gives reads closed).map _)

def aliasTokens (a : SourceAlias) : List Token := Mark.read a.marks

theorem tokens_source {s : Source} (all : s.effectiveAlias = s.sourceAlias) :
    Mark.read (s.marks d) = Mark.read (s.data.marks d) ++ optional "as" aliasTokens s.sourceAlias := by
  obtain ⟨data, sourceAlias⟩ := s
  have as : (Mark.plain "as").tokens = [keywordToken "as"] := by decide
  rw [Source.marks, all]
  cases sourceAlias <;> simp [optional, as, aliasTokens]

structure SourceReads (d : Dialect) (scope : Scope) (s : Source) : Prop where
  data : DataReads d scope s.data
  named : ∀ a ∈ s.sourceAlias, a.Fits
  all : s.effectiveAlias = s.sourceAlias

theorem source_gives {s : Source} (h : SourceReads d scope s) (breaks : Breaks rest) :
    (source scope).Gives (Mark.read (s.marks d) ++ rest) s rest := by
  rw [tokens_source h.all]
  obtain ⟨data, sourceAlias⟩ := s
  rw [List.append_assoc]
  refine (dataSource_gives h.data (breaks.closed_optional _)).bind ?_
  cases sourceAlias with
  | none =>
    refine Gives.bind (a := none) ?_ (Gives.ret _ rest)
    refine (Gives.eat_false breaks.lacks_as).bind ((Gives.look_false breaks.lacks_name).bind ?_)
    exact (Gives.look 1 _ _).bind (Gives.iteFalse (by simp) (Gives.ret _ _))
  | some a =>
    obtain ⟨named, columns⟩ := h.named a rfl
    have plain : Lacks (isKind .openParen) rest :=
      lacks_of_closed (breaks.closed 0) not_open_of_extends
    refine Gives.bind (a := some a) ?_ (Gives.ret _ rest)
    refine (Gives.eat_true (t := keywordToken "as") (by decide)).bind ?_
    refine (Gives.look 0 _ _).bind ((Gives.look 1 _ _).bind (Gives.iteTrue (by simp) ?_))
    simp only [aliasTokens, tokens_alias]
    refine (name_gives named).bind ((columnNames_give columns plain).bind (Gives.ret _ _))

theorem joinKind_tokens : ∀ kind ∈ joinKinds, (rawMark kind).tokens = [keywordToken kind] ∧
    joinKind? (keywordToken kind) = some (kind, false) := by
  have read : ∀ kind ∈ joinKinds, joinKind? (keywordToken kind) = some (kind, false) := by
    decide +kernel
  exact fun kind mem => ⟨Keyword.tokens_rawMark (joinKinds_complete kind mem), read kind mem⟩

def conditionTokens (d : Dialect) : Option JoinCondition → List Token
  | none => []
  | some condition => Mark.read (condition.marks d)

def lateralTokens (lateral : Bool) : List Token := if lateral then [keywordToken "lateral"] else []

theorem tokens_join {j : Join} (kind : j.kind ∈ joinKinds) : Mark.read (j.marks d) =
    keywordToken j.kind :: (lateralTokens j.lateral ++ (Mark.read (j.source.marks d) ++
      conditionTokens d j.condition)) := by
  obtain ⟨kind', lateral, source, condition⟩ := j
  have word : (Mark.plain "lateral").tokens = [keywordToken "lateral"] := by decide
  cases lateral <;> cases condition <;>
    simp [Join.marks, (joinKind_tokens _ kind).1, optionalWord, word, conditionTokens,
      lateralTokens]

structure JoinReads (d : Dialect) (scope : Scope) (j : Join) : Prop where
  kind : j.kind ∈ joinKinds
  source : SourceReads d scope j.source
  fits : ∀ condition ∈ j.condition, condition.Fits
  value : ∀ e, j.condition = some (.on e) → scope.here.ReadsValue d e

theorem joinCondition_gives {condition : Option JoinCondition}
    (fits : ∀ c ∈ condition, JoinCondition.Fits c)
    (value : ∀ e, condition = some (.on e) → level.ReadsValue d e)
    (follow : HeadIn joinTokens rest) :
    (joinCondition level).Gives (conditionTokens d condition ++ rest) condition rest := by
  have plain : ∀ t ∈ joinTokens, t.isCommand "on" = false ∧ t.isCommand "using" = false := by
    decide
  match condition with
  | none =>
    refine Gives.no (Gives.eat_false (follow.lacks fun t mem => (plain t mem).1)) ?_
    exact Gives.no (Gives.eat_false (follow.lacks fun t mem => (plain t mem).2)) (Gives.ret _ _)
  | some (.on e) =>
    have keyword : (Mark.plain "on").tokens = [keywordToken "on"] := by decide
    have tokens : conditionTokens d (some (.on e)) ++ rest =
        keywordToken "on" :: (e.tokens d ++ rest) := by
      simp [conditionTokens, JoinCondition.marks, keyword, Expr.tokens]
    have breaks : Breaks rest := follow.breaks fun t mem =>
      breaks_source t (List.mem_append_right _ mem)
    rw [tokens]
    refine Gives.yes (Gives.eat_true (by decide)) ?_
    exact ((value e rfl).whole (breaks.closed 0)).bind (Gives.ret _ _)
  | some (.columns names) =>
    obtain ⟨some, named⟩ := fits _ rfl
    have keyword : (Mark.plain "using").tokens = [keywordToken "using"] := by decide
    have tokens : conditionTokens d (Option.some (.columns names)) ++ rest =
        keywordToken "using" :: openToken ::
          (commaTokens (names.map fun n => [wordToken n]) ++ closeToken :: rest) := by
      simp [conditionTokens, JoinCondition.marks, keyword, read_writeNames]
    rw [tokens]
    refine Gives.no (Gives.eat_false (lacks_head (by decide))) ?_
    exact Gives.yes (Gives.eat_true (by decide)) ((names_give some named).bind (Gives.ret _ _))

theorem head_condition {condition : Option JoinCondition} (follow : HeadIn joinTokens rest) :
    HeadIn sourceTokens (conditionTokens d condition ++ rest) := by
  have on_ : (Mark.plain "on").tokens = [keywordToken "on"] := by decide
  have using_ : (Mark.plain "using").tokens = [keywordToken "using"] := by decide
  match condition with
  | none => exact follow.mono fun t mem => List.mem_append_right _ mem
  | some (.on e) =>
    have head (ts : List Token) : HeadIn sourceTokens (keywordToken "on" :: ts) :=
      .cons List.mem_cons_self ts
    simpa [conditionTokens, JoinCondition.marks, on_] using head _
  | some (.columns names) =>
    have head (ts : List Token) : HeadIn sourceTokens (keywordToken "using" :: ts) :=
      .cons (List.mem_cons_of_mem _ List.mem_cons_self) ts
    simpa [conditionTokens, JoinCondition.marks, using_] using head _

/-- What a source begins with is no keyword. -/
theorem lacks_keyword {data : DataSource} (h : DataReads d scope data) (keyword : String) :
    Lacks (fun t => t.isCommand keyword) (Mark.read (data.marks d) ++ rest) := by
  cases h with
  | @table ref _ _ =>
    obtain ⟨namespaces, table⟩ := ref
    cases namespaces <;>
      simpa [DataSource.marks, TableRef.marks, Mark.read_qualify, dotted] using lacks_head rfl
  | query _ _ => simpa [DataSource.marks] using lacks_head rfl
  | @function call reads =>
    have tokens := tokens_call call reads.fits.1 (d := d)
    rw [DataSource.marks, tokens]
    cases call.namespaces <;> exact lacks_head rfl

theorem join_gives {j : Join} (h : JoinReads d scope j) (follow : HeadIn joinTokens rest) :
    (join scope).Gives (Mark.read (j.marks d) ++ rest) (some j) rest := by
  rw [tokens_join h.kind]
  obtain ⟨kind, lateral, source, condition⟩ := j
  have breaks : Breaks (conditionTokens d condition ++ rest) :=
    (head_condition follow).breaks breaks_source
  have lateralReads : (eatKeyword "lateral").Gives (lateralTokens lateral ++
      (Mark.read (source.marks d) ++ (conditionTokens d condition ++ rest))) lateral
        (Mark.read (source.marks d) ++ (conditionTokens d condition ++ rest)) := by
    cases lateral with
    | true => exact Gives.eat_true (by decide)
    | false =>
      refine Gives.eat_false ?_
      simp only [tokens_source h.source.all, List.append_assoc]
      exact lacks_keyword h.source.data "lateral"
  simp only [List.cons_append, List.append_assoc]
  refine (Gives.accept_some (joinKind_tokens kind h.kind).2).bind ?_
  refine lateralReads.bind ((source_gives h.source breaks).bind ?_)
  refine Gives.iteFalse (by simp) ?_
  exact (joinCondition_gives h.fits h.value follow).bind (Gives.ret _ _)

end Grammar

end SqlQuery
