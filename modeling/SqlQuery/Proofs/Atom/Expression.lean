import SqlQuery.Grammar.Expression
import SqlQuery.Proofs.Atom.Yield

/-!
The rules for expressions read the nodes that they give.
-/

namespace SqlQuery

theorem Token.atoms_of_isCommand {t : Token} {word : String} (h : t.isCommand word = true) :
    t.atoms = [] := by
  have kind : t.kind = .command := by
    simp only [Token.isCommand, Bool.and_eq_true, beq_iff_eq] at h
    exact h.1
  simp [Token.atoms, kind]

theorem Token.atoms_of_isWord {t : Token} {word : String} (h : t.isWord word = true) :
    t.atoms = [] := by
  simp only [Token.isWord, Bool.and_eq_true, Bool.or_eq_true, beq_iff_eq] at h
  rcases h.1 with kind | kind <;> simp [Token.atoms, kind]

theorem Token.atoms_of_isName {t : Token} (h : isName t = true) : t.atoms = [] := by
  simp only [isName, Bool.and_eq_true, beq_iff_eq] at h
  simp [Token.atoms, h.1]

theorem Token.atoms_of_isKind {t : Token} {kind : Kind} (h : isKind kind t = true)
    (plain : kind ≠ .parameter ∧ kind ≠ .literal ∧ kind ≠ .escapedString) : t.atoms = [] := by
  have same : t.kind = kind := by simpa [isKind] using h
  unfold Token.atoms
  split <;> simp_all

/-- What was read for a bound. -/
def Bound.nodes (b : Bound) : List Node := b.offset?.toList.map .expr

/-- The rules of a level read the nodes that they give. -/
structure Level.Reads (level : Level) : Prop where
  expr : ∀ floor, (level.expr floor).Reads fun e => [.expr e]
  query : level.query.Reads fun q => [.query q]

structure Scope.Reads (scope : Scope) : Prop where
  here : scope.here.Reads
  inside : ∀ level, scope.inside = some level → level.Reads

theorem Scope.Reads.enter {α : Type} {scope : Scope} {rule : Level → Rule α} {f : α → List Node}
    (h : scope.Reads) (reads : ∀ level, level.Reads → (rule level).Reads f) :
    (scope.enter rule).Reads f := by
  intro ts ns
  exact Rule.Triple.enter fun level inside => reads level (h.inside level inside) ts ns

namespace Grammar

open Rule

theorem eatKeyword_quiet (word : String) : (eatKeyword word).Quiet :=
  Quiet.eat fun _ => Token.atoms_of_isCommand

theorem eatWord_quiet (word : String) : (eatWord word).Quiet :=
  Quiet.eat fun _ => Token.atoms_of_isWord

theorem keyword_quiet (word : String) : (keyword word).Quiet :=
  Quiet.require fun _ => Token.atoms_of_isCommand

theorem word_quiet (word : String) : (Rule.word word).Quiet :=
  Quiet.require fun _ => Token.atoms_of_isWord

theorem openParen_quiet : openParen.Quiet :=
  Quiet.require fun _ h => Token.atoms_of_isKind h (by decide)

theorem closeParen_quiet : closeParen.Quiet :=
  Quiet.require fun _ h => Token.atoms_of_isKind h (by decide)

theorem closeBracket_quiet : closeBracket.Quiet :=
  Quiet.require fun _ h => Token.atoms_of_isKind h (by decide)

theorem name_quiet : name.Quiet := by
  refine Quiet.expect ?_
  intro t a accepted
  by_cases h : isName t = true
  · exact Token.atoms_of_isName h
  · simp [h] at accepted

theorem nameList_quiet : nameList.Quiet := by
  intro ts ns
  refine openParen_quiet.bind fun _ => ?_
  refine (Quiet.commaList name_quiet).bind fun names => ?_
  refine closeParen_quiet.bind fun _ => ?_
  exact Quiet.ret names ts ns

theorem columnNames_quiet : columnNames.Quiet := by
  intro ts ns
  refine (Quiet.look 0 _).bind fun _ => ?_
  exact Triple.ite (fun _ => nameList_quiet ts ns) fun _ => Quiet.ret [] ts ns

variable {level : Level} {scope : Scope} {ts : List Token} {ns : List Node}

theorem values_reads (h : level.Reads) : (values level).Reads fun es => es.map .expr :=
  Reads.commaMap (h.expr 0)

theorem valuesBefore_reads (close : Kind) (h : level.Reads) :
    (valuesBefore close level).Reads fun es => es.map .expr := by
  intro ts ns
  refine (Quiet.look 0 _).bind fun _ => ?_
  refine Triple.ite (fun _ => ?_) fun _ => values_reads h ts ns
  exact Triple.ret fun rest yields => by simpa using yields

theorem yields_exprs {es : List Expr} {n : Node} {rest : List Token}
    (h : Yields ts (ns ++ es.map .expr) rest) (own : n.ownAtoms = [])
    (children : n.children.map Prod.snd = es.map .expr) : Yields ts (ns ++ [n]) rest :=
  h.node own (by rw [children]) fun m mem => by rwa [children]

theorem argumentValues_reads (h : level.Reads) : (argumentValues level).Reads fun e => [.expr e] := by
  intro ts ns
  refine (values_reads h ts ns).bind ?_
  intro values
  split
  · exact Triple.ret fun rest yields => by simpa using yields
  · exact Triple.ret fun rest yields =>
      yields_exprs yields rfl (by simp [Node.children, Expr.children, Child.each])

theorem nestedQuery_reads (h : level.Reads) : (nestedQuery level).Reads fun q => [.query q] := by
  intro ts ns
  refine (h.query ts ns).bind ?_
  intro query
  refine closeParen_quiet.bind fun _ => ?_
  exact Triple.ret fun rest yields => yields

theorem parenthesizedQuery_reads (h : scope.Reads) :
    (parenthesizedQuery scope).Reads fun e => [.expr e] := by
  intro ts ns
  refine openParen_quiet.bind fun _ => ?_
  refine Triple.map (((h.enter fun _ => nestedQuery_reads) ts ns).post ?_)
  intro query rest yields
  exact yields.node rfl (by simp [Node.children, Expr.children])
    (by simp [Node.children, Expr.children])

/-- The token that comes next, after these nodes have been read. -/
def Before (t : Token) (ts : List Token) (ns : List Node) (rest : List Token) : Prop :=
  Yields ts ns rest ∧ rest.head? = some t

theorem skip_before {t : Token} (plain : t.atoms = []) :
    Triple (Before t ts ns) skip fun _ => Yields ts ns := by
  refine Triple.skip ?_
  rintro rest ⟨yields, head⟩
  obtain ⟨rest', rfl⟩ := List.head?_eq_some_iff.1 head
  exact yields.skip plain

theorem closed_values_reads {kind : Kind} {what : String} {read : Level → Rule (List Expr)}
    (h : scope.Reads) (reads : ∀ level, level.Reads → (read level).Reads fun es => es.map .expr)
    (plain : kind ≠ .parameter ∧ kind ≠ .literal ∧ kind ≠ .escapedString) :
    (scope.enter fun level => do
      let values ← read level
      require (isKind kind) what
      return values).Reads fun es => es.map .expr := by
  refine h.enter ?_
  intro level inside ts ns
  refine (reads level inside ts ns).bind ?_
  intro values
  refine Quiet.bind (Quiet.require fun _ h => Token.atoms_of_isKind h plain) fun _ => ?_
  exact Triple.ret fun rest yields => yields

theorem parenthesized_reads (h : scope.Reads) {t : Token} (paren : t.kind = .openParen) :
    Triple (Before t ts ns) (parenthesized scope) fun e => Yields ts (ns ++ [Node.expr e]) := by
  refine Triple.look_keep.bind fun isQuery => ?_
  refine Triple.ite (fun _ => ?_) fun _ => ?_
  · exact (parenthesizedQuery_reads h ts ns).pre fun rest before => before.1
  · refine (skip_before (by simp [Token.atoms, paren])).bind fun _ => ?_
    refine (closed_values_reads h (fun _ => values_reads) (by decide) ts ns).bind ?_
    intro values
    split
    · exact Triple.ret fun rest yields =>
        yields_exprs yields rfl (by simp [Node.children, Expr.children])
    · exact Triple.ret fun rest yields =>
        yields_exprs yields rfl (by simp [Node.children, Expr.children, Child.each])

theorem membership_reads (h : scope.Reads) (power : Nat) :
    (membership scope power).Reads fun e => [.expr e] := by
  intro ts ns
  refine Triple.bind (Triple.look (Q := fun b rest =>
    Yields ts ns rest ∧ b = rest[0]?.any (isKind .openParen)) fun rest yields => ⟨yields, rfl⟩) ?_
  intro paren
  refine Triple.look_keep.bind fun isQuery => ?_
  refine Triple.ite (fun _ => ?_) fun list => ?_
  · exact (h.here.expr power ts ns).pre fun rest before => before.1
  · have isParen : paren = true := by simp at list; exact list.1
    refine Triple.bind (Q := fun _ => Yields ts ns) (Triple.skip ?_) fun _ => ?_
    · rintro rest ⟨yields, same⟩
      rw [isParen] at same
      cases rest with
      | nil => simp at same
      | cons t rest =>
        exact yields.skip (Token.atoms_of_isKind (by simpa using same.symm) (by decide))
    · refine Triple.map ((closed_values_reads h (fun _ => valuesBefore_reads .closeParen)
        (by decide) ts ns).post ?_)
      intro values rest yields
      exact yields_exprs yields rfl (by simp [Node.children, Expr.children, Child.each])

/-- Two words follow the next token. -/
def TwoWords (ts : List Token) (ns : List Node) (rest : List Token) : Prop :=
  Yields ts ns rest ∧ rest[1]?.any (fun t => t.isWord "time") = true ∧
    rest[2]?.any (fun t => t.isWord "zone") = true

theorem eat_skip_skip {p : Token → Bool} {α : Type} {a : α} {other : Rule α}
    {Q : α → List Token → Prop} (plain : ∀ t, p t = true → t.atoms = [])
    (done : ∀ rest, Yields ts ns rest → Q a rest) (otherwise : Triple (TwoWords ts ns) other Q) :
    Triple (TwoWords ts ns) (do
      if ← eat p then
        skip
        skip
        return a
      else other) Q := by
  refine Triple.bind (Q := fun b rest => if b then
      Yields ts ns rest ∧ rest[0]?.any (fun t => t.isWord "time") = true ∧
        rest[1]?.any (fun t => t.isWord "zone") = true
    else TwoWords ts ns rest) (Triple.eat ?_ ?_) ?_
  · rintro t rest ⟨yields, time, zone⟩ accepted
    exact ⟨yields.skip (plain t accepted), by simpa using time, by simpa using zone⟩
  · intro rest words _
    exact words
  · intro b
    cases b with
    | false => exact otherwise
    | true =>
      refine Triple.bind (Q := fun _ rest => Yields ts ns rest ∧
        rest[0]?.any (fun t => t.isWord "zone") = true) (Triple.skip ?_) fun _ => ?_
      · rintro rest ⟨yields, time, zone⟩
        cases rest with
        | nil => simp at time
        | cons t rest => exact ⟨yields.skip (Token.atoms_of_isWord (by simpa using time)), zone⟩
      · refine Triple.bind (Q := fun _ => Yields ts ns) (Triple.skip ?_) fun _ => Triple.ret done
        rintro rest ⟨yields, zone⟩
        cases rest with
        | nil => simp at zone
        | cons t rest => exact yields.skip (Token.atoms_of_isWord (by simpa using zone))

theorem timeZone_quiet : timeZone.Quiet := by
  intro ts ns
  have done : ∀ rest, Yields ts ns rest → Yields ts (ns ++ []) rest := by
    intro rest yields
    simpa using yields
  refine Triple.bind (Q := fun b rest => Yields ts ns rest ∧
    rest[1]?.any (fun t => t.isWord "time") = b) (Triple.look fun rest yields => ⟨yields, rfl⟩) ?_
  intro time
  refine Triple.bind (Q := fun b rest => Yields ts ns rest ∧
    rest[1]?.any (fun t => t.isWord "time") = time ∧ rest[2]?.any (fun t => t.isWord "zone") = b)
    (Triple.look fun rest yields => ⟨yields.1, yields.2, rfl⟩) ?_
  intro zone
  refine Triple.ite (fun both => ?_) fun _ => Triple.ret fun rest yields => done rest yields.1
  simp only [Bool.and_eq_true] at both
  obtain ⟨rfl, rfl⟩ := both
  refine eat_skip_skip (fun _ => Token.atoms_of_isCommand) done ?_
  refine eat_skip_skip (fun _ => Token.atoms_of_isWord) done ?_
  exact Triple.ret fun rest words => done rest words.1

theorem typeSuffix_quiet (name : String) : (typeSuffix name).Quiet := by
  have one (word suffix : String) : (do
      if ← eatWord word then return suffix else return "" : Rule String).Quiet := by
    intro ts ns
    refine (eatWord_quiet word).bind fun _ => ?_
    exact Triple.ite (fun _ => Quiet.ret _ ts ns) fun _ => Quiet.ret _ ts ns
  intro ts ns
  refine Triple.ite (fun _ => one _ _ ts ns) fun _ => ?_
  refine Triple.ite (fun _ => one _ _ ts ns) fun _ => ?_
  exact Triple.ite (fun _ => timeZone_quiet ts ns) fun _ => Quiet.ret _ ts ns

theorem typeRef_reads (h : level.Reads) : (typeRef level).Reads fun t => [.expr (.type t)] := by
  intro ts ns
  refine Quiet.bind (Quiet.expect ?_) fun name => ?_
  · intro t a accepted
    by_cases named : isName t = true
    · exact Token.atoms_of_isName named
    · simp [named] at accepted
  refine (typeSuffix_quiet name).bind fun suffix => ?_
  refine Triple.bind (Q := fun argument rest =>
    Yields ts (ns ++ argument.toList.map .expr) rest) (Triple.after (R := Yields ts ns) ?_ ?_) ?_
  · refine (Quiet.eat (fun t h => Token.atoms_of_isKind h (by decide)) ts ns).post ?_
    intro b rest yields
    cases b <;> simpa using yields
  · refine (values_reads h ts ns).bind fun values => ?_
    refine closeParen_quiet.bind fun _ => ?_
    exact Triple.ret fun rest yields =>
      yields_exprs yields rfl (by simp [Node.children, Expr.children, Child.each])
  · intro argument
    refine Triple.ret fun rest yields => yields.node rfl ?_ ?_
    · simp [Node.children, Expr.children, TypeRef.children, Child.maybe, Child.each,
        Node.atoms_raw, List.flatMap_map]
    · intro m mem
      simp [Node.children, Expr.children, TypeRef.children, Child.maybe, Child.each] at mem ⊢
      exact .inr mem

/-- What was read to the right of an operator. -/
def Suffix.nodes : Suffix → List Node
  | .cast type => [.expr (.type type)]
  | .between _ lower upper => [.expr lower, .expr upper]
  | .binary _ right => [.expr right]

theorem yields_apply {first : Expr} {s : Suffix} {rest : List Token}
    (h : Yields ts (ns ++ [Node.expr first] ++ s.nodes) rest) :
    Yields ts (ns ++ [Node.expr (s.apply first)]) rest := by
  rw [List.append_assoc] at h
  cases s with
  | cast type =>
    refine h.node rfl ?_ ?_ <;> simp [Suffix.apply, Suffix.nodes, Node.children, Expr.children]
  | between negated lower upper =>
    refine h.node rfl ?_ ?_ <;> simp [Suffix.apply, Suffix.nodes, Node.children, Expr.children]
  | binary operator right =>
    refine h.node rfl ?_ ?_ <;>
      simp [Suffix.apply, Suffix.nodes, Node.children, Expr.children, Node.atoms_raw]

theorem operatorSuffix_reads (h : scope.Reads) (operator : String) (power : Nat) :
    (operatorSuffix scope operator power).Reads Suffix.nodes := by
  intro ts ns
  refine Triple.ite (fun _ => Triple.map (typeRef_reads h.here ts ns)) fun _ => ?_
  refine Triple.ite (fun _ => ?_) fun _ => ?_
  · refine (h.here.expr power ts ns).bind fun lower => ?_
    refine (keyword_quiet "and").bind fun _ => ?_
    refine (h.here.expr power ts _).bind fun upper => ?_
    exact Triple.ret fun rest yields => by simpa [Suffix.nodes] using yields
  · refine Triple.ite (fun _ => ?_) fun _ => ?_
    · exact Triple.map (membership_reads h power ts ns)
    · exact Triple.map (h.here.expr power ts ns)

theorem atoms_of_operatorFrom {floor : Nat} {t : Token} {o : String × Nat}
    (h : operatorFrom floor t = some o) : t.atoms = [] := by
  cases power : Power.binary? t with
  | none => simp [operatorFrom, power] at h
  | some p =>
    unfold Power.binary? at power
    split at power
    case h_1 kind => simp [Token.atoms, kind]
    case h_2 kind => simp [Token.atoms, kind]
    case h_3 => simp at power

theorem suffix_reads (h : scope.Reads) (floor : Nat) :
    (suffix scope floor).Reads fun o => o.toList.flatMap Suffix.nodes := by
  intro ts ns
  refine (Quiet.accept fun _ _ => atoms_of_operatorFrom).bind fun o => ?_
  cases o with
  | none => exact Triple.ret fun rest yields => by simpa using yields
  | some operator =>
    refine Triple.map ((operatorSuffix_reads h operator.1 operator.2 ts ns).post ?_)
    intro s rest yields
    simpa using yields

theorem direction_quiet : direction.Quiet := by
  intro ts ns
  refine (eatKeyword_quiet "desc").bind fun _ => ?_
  refine Triple.ite (fun _ => Quiet.ret _ ts ns) fun _ => ?_
  exact (eatKeyword_quiet "asc").bind fun _ => Quiet.ret _ ts ns

theorem nullsPosition_quiet : nullsPosition.Quiet := by
  intro ts ns
  refine (eatKeyword_quiet "nulls first").bind fun _ => ?_
  refine Triple.ite (fun _ => Quiet.ret _ ts ns) fun _ => ?_
  refine (eatKeyword_quiet "nulls last").bind fun _ => ?_
  exact Triple.ite (fun _ => Quiet.ret _ ts ns) fun _ => Quiet.ret _ ts ns

theorem orderItem_reads (h : level.Reads) : (orderItem level).Reads fun i => [.orderItem i] := by
  intro ts ns
  refine (h.expr 0 ts ns).bind fun value => ?_
  refine direction_quiet.bind fun direction => ?_
  refine nullsPosition_quiet.bind fun nulls => ?_
  exact Triple.ret fun rest yields =>
    yields.node rfl (by simp [Node.children]) (by simp [Node.children])

theorem orderBy_reads (h : level.Reads) :
    (orderBy level).Reads fun o => o.toList.map .orderBy := by
  intro ts ns
  refine (Reads.after (eatKeyword_quiet "order by") (Reads.commaMap (orderItem_reads h)) ts ns).post ?_
  intro items rest yields
  cases items with
  | none => simpa using yields
  | some items =>
    have read : Yields ts (ns ++ items.map .orderItem) rest := by simpa using yields
    refine read.node rfl ?_ ?_ <;>
      simp [Node.children, Child.each, Function.comp_def]

theorem bound_reads (h : level.Reads) : (bound level).Reads Bound.nodes := by
  intro ts ns
  have whole {b : Bound} (none : b.nodes = []) :
      Triple (Yields ts ns) (pure b) fun b => Yields ts (ns ++ b.nodes) :=
    Triple.ret fun rest yields => by simpa [none] using yields
  refine (eatWord_quiet "unbounded").bind fun _ => ?_
  refine Triple.ite (fun _ => ?_) fun _ => ?_
  · refine (eatWord_quiet "preceding").bind fun _ => ?_
    refine Triple.ite (fun _ => whole rfl) fun _ => ?_
    exact (word_quiet "following").bind fun _ => whole rfl
  refine (eatWord_quiet "current").bind fun _ => ?_
  refine Triple.ite (fun _ => ?_) fun _ => ?_
  · exact (word_quiet "row").bind fun _ => whole rfl
  refine (h.expr 0 ts ns).bind fun offset => ?_
  refine (eatWord_quiet "preceding").bind fun _ => ?_
  refine Triple.ite (fun _ => Triple.ret fun rest yields => yields) fun _ => ?_
  refine (word_quiet "following").bind fun _ => ?_
  exact Triple.ret fun rest yields => yields

theorem frame_reads (h : level.Reads) : (frame level).Reads fun f => f.toList.map .frame := by
  intro ts ns
  refine Quiet.bind (Quiet.accept ?_) fun unit => ?_
  · intro t a accepted
    unfold frameUnit? at accepted
    split at accepted
    case isTrue word => exact Token.atoms_of_isWord word
    split at accepted
    case isTrue word => exact Token.atoms_of_isWord word
    split at accepted
    case isTrue word => exact Token.atoms_of_isWord word
    cases accepted
  cases unit with
  | none => exact Triple.ret fun rest yields => by simpa using yields
  | some unit =>
    refine (eatKeyword_quiet "between").bind fun _ => ?_
    refine Triple.ite (fun _ => ?_) fun _ => ?_
    · refine (bound_reads h ts ns).bind fun start => ?_
      refine (keyword_quiet "and").bind fun _ => ?_
      refine (bound_reads h ts _).bind fun stop => ?_
      refine Triple.ret fun rest yields => ?_
      rw [List.append_assoc] at yields
      refine yields.node rfl ?_ ?_ <;>
        simp [Node.children, Child.maybe, Child.each, Bound.nodes, Function.comp_def]
    · refine (bound_reads h ts ns).bind fun start => ?_
      refine Triple.ret fun rest yields => yields.node rfl ?_ ?_ <;>
        simp [Node.children, Child.maybe, Child.each, Bound.nodes, Function.comp_def]

theorem windowSpec_reads (h : level.Reads) : (windowSpec level).Reads fun w => [.windowSpec w] := by
  intro ts ns
  refine Triple.bind (Q := fun partition rest =>
    Yields ts (ns ++ partition.toList.map .partitionBy) rest) ?_ fun partition => ?_
  · refine (Reads.after (eatKeyword_quiet "partition by") (values_reads h) ts ns).post ?_
    intro values rest yields
    cases values with
    | none => simpa using yields
    | some values =>
      exact yields_exprs (by simpa using yields) rfl
        (by simp [Node.children, Child.each, Function.comp_def])
  refine (orderBy_reads h ts _).bind fun order => ?_
  refine (frame_reads h ts _).bind fun frame => ?_
  refine Triple.ret fun rest yields => ?_
  rw [List.append_assoc, List.append_assoc] at yields
  refine yields.node rfl ?_ ?_ <;>
    simp [Node.children, Child.maybe, Child.each, Function.comp_def]

theorem windowRef_reads (h : scope.Reads) : (windowRef scope).Reads fun o => [.overClause o] := by
  intro ts ns
  refine (Quiet.look 0 _).bind fun _ => ?_
  refine Triple.ite (fun _ => Triple.map ?_) fun _ => ?_
  · refine (name_quiet ts ns).post fun name rest yields => yields.node rfl ?_ ?_ <;>
      simp [Node.children, Over.children, Node.atoms_identifier]
  · refine Quiet.bind (Quiet.require fun _ h => Token.atoms_of_isKind h (by decide)) fun _ => ?_
    refine Triple.map (Triple.post (Q := fun spec => Yields ts (ns ++ [Node.windowSpec spec])) ?_ ?_)
    · refine Triple.enter fun level inside => ?_
      refine (windowSpec_reads (h.inside level inside) ts ns).bind fun spec => ?_
      exact closeParen_quiet.bind fun _ => Triple.ret fun rest yields => by simpa using yields
    · intro spec rest yields
      exact yields.node rfl (by simp [Node.children, Over.children])
        (by simp [Node.children, Over.children])

theorem extractField_quiet (name : String) : (extractField name).Quiet := by
  intro ts ns
  refine Triple.bind (Q := fun b rest => Yields ts ns rest ∧
    rest[1]?.any (fun t => t.isCommand "from") = b) (Triple.look fun rest yields => ⟨yields, rfl⟩) ?_
  intro follows
  refine Triple.ite (fun both => ?_) fun _ => Triple.ret fun rest yields => by simpa using yields.1
  simp only [Bool.and_eq_true] at both
  refine Triple.bind (Q := fun field rest => Yields ts ns rest ∧
    (field.isSome = true → rest[0]?.any (fun t => t.isCommand "from") = true)) ?_ fun field => ?_
  · refine Triple.accept ?_ ?_
    · rintro t rest field ⟨yields, next⟩ accepted
      refine ⟨yields.skip ?_, fun _ => by simpa [both.2] using next⟩
      by_cases identifier : isKind .identifier t = true
      · exact Token.atoms_of_isKind identifier (by decide)
      · simp [identifier] at accepted
    · rintro rest ⟨yields, _⟩ _
      exact ⟨yields, by simp⟩
  · refine Triple.ite (fun some => ?_) fun _ => Triple.ret fun rest yields => by simpa using yields.1
    refine Triple.bind (Q := fun _ => Yields ts ns) (Triple.skip ?_) fun _ => Quiet.ret _ ts ns
    rintro rest ⟨yields, next⟩
    cases rest with
    | nil => simpa using next some
    | cons t rest => exact yields.skip (Token.atoms_of_isCommand (by simpa using next some))

theorem argument_reads (h : level.Reads) (name : String) :
    (argument name level).Reads fun o => o.toList.map .expr := by
  intro ts ns
  refine (Quiet.look 0 _).bind fun _ => ?_
  refine Triple.ite (fun _ => Triple.ret fun rest yields => by simpa using yields) fun _ => ?_
  refine Quiet.bind (Quiet.eat ?_) fun _ => ?_
  · intro t star
    simp only [Bool.and_eq_true] at star
    exact Token.atoms_of_isKind star.1 (by decide)
  refine Triple.ite (fun _ => Triple.ret fun rest yields => ?_) fun _ => ?_
  · exact Yields.leaf (by simpa using yields) (Node.atoms_column _)
  refine (eatKeyword_quiet "distinct").bind fun _ => ?_
  refine Triple.ite (fun _ => ?_) fun _ => ?_
  · refine (argumentValues_reads h ts ns).bind fun value => ?_
    refine Triple.ret fun rest yields => yields.node rfl ?_ ?_ <;>
      simp [Node.children, Expr.children, Node.atoms_raw]
  refine (Quiet.look 0 _).bind fun _ => ?_
  refine Triple.ite (fun _ => ?_) fun _ => ?_
  · refine (h.query ts ns).bind fun query => ?_
    refine Triple.ret fun rest yields => yields.node rfl ?_ ?_ <;>
      simp [Node.children, Expr.children]
  refine (extractField_quiet name).bind fun field => ?_
  cases field with
  | some field =>
    refine (h.expr 0 ts ns).bind fun value => ?_
    refine Triple.ret fun rest yields => yields.node rfl ?_ ?_ <;>
      simp [Node.children, Expr.children, Node.atoms_raw]
  | none =>
    refine (argumentValues_reads h ts ns).bind fun value => ?_
    exact Triple.ret fun rest yields => yields

theorem functionCall_reads (h : scope.Reads) (namespaces : List String) (name : String) :
    (functionCall scope namespaces name).Reads fun call => [.expr (.function call)] := by
  intro ts ns
  refine openParen_quiet.bind fun _ => ?_
  refine Triple.bind (Q := fun argument rest =>
    Yields ts (ns ++ argument.toList.map .expr) rest) ?_ fun argument => ?_
  · refine Triple.enter fun level inside => ?_
    refine (argument_reads (h.inside level inside) name ts ns).bind fun argument => ?_
    exact closeParen_quiet.bind fun _ => Triple.ret fun rest yields => yields
  refine (Reads.after (eatKeyword_quiet "over") (windowRef_reads h) ts _).bind fun window => ?_
  refine Triple.ret fun rest yields => ?_
  rw [List.append_assoc] at yields
  refine yields.node rfl ?_ ?_
  · cases window <;> simp [Node.children, Expr.children, FunctionCall.children, Child.maybe,
      Child.each, Node.atoms_identifier, Node.atoms_raw, List.flatMap_map]
  · cases window <;> cases argument <;> simp [Node.children, Expr.children, FunctionCall.children,
      Child.maybe, Child.each]

theorem path_quiet : path.Quiet := by
  have upTo (bound : List Token) : (pathUpTo bound).Quiet := by
    induction bound with
    | nil =>
      intro ts ns
      exact Triple.fail
    | cons t bound ih =>
      intro ts ns
      refine Quiet.bind (Quiet.expect ?_) fun name => ?_
      · intro t a accepted
        by_cases identifier : isKind .identifier t = true
        · exact Token.atoms_of_isKind identifier (by decide)
        · simp [identifier] at accepted
      refine Triple.ite (fun _ => Quiet.ret _ ts ns) fun _ => ?_
      refine Quiet.bind (Quiet.eat fun t h => Token.atoms_of_isKind h (by decide)) fun _ => ?_
      refine Triple.ite (fun _ => ?_) fun _ => Quiet.ret _ ts ns
      exact Quiet.bind ih fun names => Quiet.ret _ ts ns
  intro ts ns mid names rest yields run
  exact upTo mid ts ns mid names rest yields run

theorem typedString_reads (allowed : Bool) : (typedString allowed).Reads fun o =>
    o.toList.map fun text => .expr (.literal (.ofText text)) := by
  intro ts ns
  refine Triple.ite (fun _ => Triple.accept ?_ ?_) fun _ => ?_
  · intro t rest text yields accepted
    by_cases quoted : (isKind .literal t && isQuoted t.text) = true
    · simp only [quoted, if_true, Option.some.injEq] at accepted
      simp only [isKind, Bool.and_eq_true, beq_iff_eq] at quoted
      subst accepted
      exact yields.read (by simp [Node.atoms_literal, Token.atoms, quoted.1])
    · simp [quoted] at accepted
  · intro rest yields _
    simpa using yields
  · exact Triple.ret fun rest yields => by simpa using yields

theorem named_reads (h : scope.Reads) : (named scope).Reads fun e => [.expr e] := by
  intro ts ns
  refine path_quiet.bind fun names => ?_
  refine (Quiet.look 0 _).bind fun isCall => ?_
  refine Triple.ite (fun _ => Triple.map (functionCall_reads h _ _ ts ns)) fun _ => ?_
  refine (typedString_reads _ ts ns).bind fun literal => ?_
  cases literal with
  | some text =>
    refine Triple.ret fun rest yields => yields.node rfl ?_ ?_ <;>
      simp [Node.children, Expr.children, Node.atoms_raw]
  | none => exact Triple.ret fun rest yields => Yields.leaf (by simpa using yields) (Node.atoms_column _)

theorem branch_reads (h : level.Reads) : (branch level).Reads fun b => [.branch b] := by
  intro ts ns
  refine (h.expr 0 ts ns).bind fun key => ?_
  refine (keyword_quiet "then").bind fun _ => ?_
  refine (h.expr 0 ts _).bind fun value => ?_
  refine Triple.ret fun rest yields => ?_
  rw [List.append_assoc] at yields
  refine yields.node rfl ?_ ?_ <;> simp [Node.children]

/-- The keyword that the operand starts with comes next. -/
theorem skip_keyword {t : Token} (command : t.kind = .command) :
    Triple (Before t ts ns) skip fun _ => Yields ts ns :=
  skip_before (by simp [Token.atoms, command])

theorem caseSubject_reads (h : level.Reads) :
    (caseSubject level).Reads fun o => o.toList.map .expr := by
  intro ts ns
  refine (Quiet.look 0 _).bind fun _ => ?_
  refine Triple.ite (fun _ => Triple.ret fun rest yields => by simpa using yields) fun _ => ?_
  exact Triple.map (h.expr 0 ts ns)

theorem branches_reads (h : level.Reads) : (branches level).Reads fun bs => bs.map .branch := by
  intro ts ns
  refine (Reads.manyMap (Reads.afterMap (eatKeyword_quiet "when") (branch_reads h)) ts ns).bind
    fun branches => ?_
  exact Triple.ite (fun _ => Triple.fail) fun _ => Triple.ret fun rest yields => yields

theorem caseExpr_reads (h : scope.Reads) {t : Token} (command : t.kind = .command) :
    Triple (Before t ts ns) (caseExpr scope) fun e => Yields ts (ns ++ [Node.expr e]) := by
  refine (skip_keyword command).bind fun _ => ?_
  refine Triple.enter fun level inside => ?_
  have h := h.inside level inside
  refine (caseSubject_reads h ts ns).bind fun subject => ?_
  refine (branches_reads h ts _).bind fun branches => ?_
  refine (Reads.afterMap (eatKeyword_quiet "else") (h.expr 0) ts _).bind fun otherwise => ?_
  refine (keyword_quiet "end").bind fun _ => Triple.ret fun rest yields => ?_
  have switch : Yields ts (ns ++ subject.toList.map .expr ++ [Node.switch ⟨branches, otherwise⟩])
      rest := by
    rw [List.append_assoc] at yields
    refine yields.node rfl ?_ ?_ <;>
      simp [Node.children, Child.each, Child.maybe, List.flatMap_map, Function.comp_def]
  rw [List.append_assoc] at switch
  refine switch.node rfl ?_ ?_ <;>
    simp [Node.children, Expr.children, Child.each, Child.maybe, Function.comp_def]

theorem castExpr_reads (h : scope.Reads) {t : Token} (command : t.kind = .command) :
    Triple (Before t ts ns) (castExpr scope) fun e => Yields ts (ns ++ [Node.expr e]) := by
  refine (skip_keyword command).bind fun _ => ?_
  refine openParen_quiet.bind fun _ => ?_
  refine Triple.enter fun level inside => ?_
  have h := h.inside level inside
  refine (h.expr 0 ts ns).bind fun input => ?_
  refine (keyword_quiet "as").bind fun _ => ?_
  refine (typeRef_reads h ts _).bind fun type => ?_
  refine closeParen_quiet.bind fun _ => Triple.ret fun rest yields => ?_
  rw [List.append_assoc] at yields
  refine yields.node rfl ?_ ?_ <;> simp [Node.children, Expr.children]

theorem arrayExpr_reads (h : scope.Reads) {t : Token} (command : t.kind = .command) :
    Triple (Before t ts ns) (arrayExpr scope) fun e => Yields ts (ns ++ [Node.expr e]) := by
  have array {content e : Expr} (same : e = .array content) {rest : List Token}
      (yields : Yields ts (ns ++ [Node.expr content]) rest) : Yields ts (ns ++ [Node.expr e]) rest := by
    subst same
    refine yields.node rfl ?_ ?_ <;> simp [Node.children, Expr.children]
  refine (skip_keyword command).bind fun _ => ?_
  refine Quiet.bind (Quiet.eat fun t h => Token.atoms_of_isKind h (by decide)) fun _ => ?_
  refine Triple.ite (fun _ => ?_) fun _ => ?_
  · refine Triple.enter fun level inside => ?_
    refine (valuesBefore_reads .closeBracket (h.inside level inside) ts ns).bind fun values => ?_
    refine closeBracket_quiet.bind fun _ => Triple.ret fun rest yields => array rfl ?_
    exact yields_exprs yields rfl (by simp [Node.children, Expr.children, Child.each])
  · refine (Quiet.look 0 _).bind fun _ => (Quiet.look 1 _).bind fun _ => ?_
    refine Triple.ite (fun _ => ?_) fun _ => Triple.fail
    refine Triple.map ((parenthesizedQuery_reads h ts ns).post fun e rest yields => array rfl yields)

theorem keywordOperand_reads (h : scope.Reads) {t : Token} (command : t.kind = .command) :
    Triple (Before t ts ns) (keywordOperand scope t.text) fun e => Yields ts (ns ++ [Node.expr e]) := by
  have literal {value : Literal} (plain : (Node.expr (.literal value)).atoms = []) :
      Triple (Before t ts ns) (do
        skip
        return .literal value) fun e => Yields ts (ns ++ [Node.expr e]) := by
    refine (skip_keyword command).bind fun _ => Triple.ret fun rest yields => ?_
    exact Yields.leaf (by simpa using yields) plain
  refine Triple.ite (fun _ => literal ?_) fun _ => ?_
  · rw [Node.atoms_eq]
    rfl
  refine Triple.ite (fun _ => literal ?_) fun _ => ?_
  · rw [Node.atoms_eq]
    rfl
  refine Triple.ite (fun _ => caseExpr_reads h command) fun _ => ?_
  refine Triple.ite (fun _ => castExpr_reads h command) fun _ => ?_
  refine Triple.ite (fun _ => arrayExpr_reads h command) fun _ => ?_
  refine Triple.ite (fun _ => ?_) fun _ => Triple.fail
  refine (skip_keyword command).bind fun _ => Triple.map ?_
  refine (parenthesizedQuery_reads h ts ns).post fun e rest yields => yields.node rfl ?_ ?_ <;>
    simp [Node.children, Expr.children, Node.atoms_raw]

theorem primary_reads (h : scope.Reads) (t : Token) :
    Triple (Before t ts ns) (primary scope t) fun e => Yields ts (ns ++ [Node.expr e]) := by
  have taken {e : Expr} (same : (Node.expr e).atoms = t.atoms) :
      Triple (Before t ts ns) (do
        skip
        return e) fun e => Yields ts (ns ++ [Node.expr e]) := by
    refine Triple.bind (Q := fun _ => Yields ts (ns ++ [Node.expr e])) (Triple.skip ?_) fun _ =>
      Triple.ret fun rest yields => yields
    rintro rest ⟨yields, head⟩
    obtain ⟨rest', rfl⟩ := List.head?_eq_some_iff.1 head
    exact yields.read same
  unfold primary
  split
  case h_1 kind => exact taken (by simp [Token.atoms, kind, Node.atoms_literal])
  case h_2 kind => exact taken (by rw [Node.atoms_ofSpecified]; simp [Token.atoms, kind])
  case h_3 kind => exact taken (by simp [Token.atoms, kind, Node.atoms_parameter])
  case h_4 kind => exact parenthesized_reads h kind
  case h_5 => exact (named_reads h ts ns).pre fun rest before => before.1
  case h_6 kind => exact keywordOperand_reads h kind
  case h_7 => exact Triple.fail

theorem atoms_of_unary {t : Token} {power : Nat} (h : Power.unary? t = some power) :
    t.atoms = [] := by
  unfold Power.unary? at h
  split at h
  case isTrue sign =>
    simp only [Bool.and_eq_true, beq_iff_eq] at sign
    simp [Token.atoms, sign.1]
  case isFalse =>
    split at h
    case isTrue word => exact Token.atoms_of_isCommand word
    case isFalse => cases h

theorem operand_reads (h : scope.Reads) : (operand scope).Reads fun e => [.expr e] := by
  intro ts ns
  refine Triple.bind (Q := fun o rest => Yields ts ns rest ∧ rest.head? = o)
    (Triple.peek fun rest yields => ⟨yields, rfl⟩) fun o => ?_
  cases o with
  | none => exact Triple.fail
  | some t =>
    dsimp only
    split
    case h_1 power unary =>
      refine (skip_before (atoms_of_unary unary)).bind fun _ => Triple.map ?_
      refine (h.here.expr power ts ns).post fun e rest yields => yields.node rfl ?_ ?_ <;>
        simp [Node.children, Expr.children, Node.atoms_raw]
    case h_2 => exact primary_reads h t

/-- An expression of a scope whose rules read their nodes. -/
theorem expression_reads (h : scope.Reads) (floor : Nat) :
    (expression scope floor).Reads fun e => [.expr e] := by
  intro ts ns
  refine (operand_reads h ts ns).bind fun first => ?_
  refine Triple.bind (Triple.many (I := fun suffixes =>
    Yields ts (ns ++ [Node.expr (suffixes.foldl Suffix.apply first)])) fun suffixes => ?_) fun suffixes =>
      Triple.ret fun rest yields => yields
  refine (suffix_reads h floor ts _).post fun o rest yields => ?_
  cases o with
  | none => simpa using yields
  | some s => simpa using yields_apply (by simpa using yields)

end Grammar

end SqlQuery
