import SqlQuery.Proofs.Reading.Call

/-!
Operands that begin with a keyword or an operator are read back.
-/

namespace SqlQuery.Grammar

open Rule

variable {d : Dialect} {scope : Scope} {level : Level} {e : Expr} {rest : List Token}

/-- Keywords that stand between the parts of a `case`. -/
def caseTokens : List Token := ["when", "else", "end"].map keywordToken

def branchTokens (d : Dialect) (b : Branch) : List Token :=
  keywordToken "when" :: (b.key.tokens d ++ keywordToken "then" :: b.value.tokens d)

def elseTokens (d : Dialect) : Option Expr → List Token
  | none => []
  | some e => keywordToken "else" :: e.tokens d

def optionTokens (d : Dialect) : Option Expr → List Token
  | none => []
  | some e => e.tokens d

theorem read_branches (bs : List Branch) :
    (branchesMarks d bs).flatMap Mark.read = bs.flatMap (branchTokens d) := by
  have whenMark : (Mark.plain "when").tokens = [keywordToken "when"] := by decide
  have thenMark : (Mark.plain "then").tokens = [keywordToken "then"] := by decide
  induction bs with
  | nil => rfl
  | cons b bs ih =>
    obtain ⟨key, value⟩ := b
    simp [branchesMarks, Branch.marks, ih, whenMark, thenMark, branchTokens, Expr.tokens]

theorem tokens_case (subject : Option Expr) (bs : List Branch) (otherwise : Option Expr) :
    (Expr.case subject ⟨bs, otherwise⟩).tokens d = keywordToken "case" ::
      (optionTokens d subject ++ (bs.flatMap (branchTokens d) ++
        (elseTokens d otherwise ++ [keywordToken "end"]))) := by
  have caseMark : (Mark.plain "case").tokens = [keywordToken "case"] := by decide
  have elseMark : (Mark.plain "else").tokens = [keywordToken "else"] := by decide
  have endMark : (Mark.plain "end").tokens = [keywordToken "end"] := by decide
  cases subject <;> cases otherwise <;>
    simp [Expr.tokens, Expr.marks, Switch.marks, caseMark, elseMark, endMark, read_branches, optionTokens,
      elseTokens]

/-- What the parts of a `case` are read as. -/
structure CaseReads (d : Dialect) (level : Level) (subject : Option Expr) (switch : Switch) :
    Prop where
  subject : ∀ e ∈ subject, level.ReadsValue d e ∧ e.Begins d
  branches : switch.branches ≠ []
  each : ∀ b ∈ switch.branches, level.ReadsValue d b.key ∧ level.ReadsValue d b.value
  otherwise : ∀ e ∈ switch.otherwise, level.ReadsValue d e

theorem closed_case (follow : HeadIn caseTokens rest) (bound : Nat) : Closed bound rest :=
  follow.closed bound (by decide)

theorem caseSubject_gives {subject : Option Expr}
    (h : ∀ e ∈ subject, level.ReadsValue d e ∧ e.Begins d) (ts : List Token) :
    (caseSubject level).Gives (optionTokens d subject ++ keywordToken "when" :: ts) subject
      (keywordToken "when" :: ts) := by
  cases subject with
  | none => exact Gives.yes (Gives.look_true (by decide)) (Gives.ret _ _)
  | some e =>
    obtain ⟨reads, begins⟩ := h e rfl
    have lacks : Lacks (fun t => t.isCommand "when")
        (e.tokens d ++ keywordToken "when" :: ts) :=
      lacks_of_begins begins fun t opens => Token.not_command_of_opensValue opens (by decide)
    have closed : Closed 0 (keywordToken "when" :: ts) :=
      closed_case (.cons (by decide) ts) 0
    exact Gives.no (Gives.look_false lacks) ((reads.whole closed).map some)

theorem branch_gives {b : Branch} (key : level.ReadsValue d b.key)
    (value : level.ReadsValue d b.value) (follow : HeadIn caseTokens rest) :
    (after (eatKeyword "when") (branch level)).Gives (branchTokens d b ++ rest) (some b) rest := by
  obtain ⟨first, second⟩ := b
  have tokens : branchTokens d ⟨first, second⟩ ++ rest = keywordToken "when" ::
      (first.tokens d ++ (keywordToken "then" :: (second.tokens d ++ rest))) := by
    simp [branchTokens]
  have closed : Closed 0 (keywordToken "then" :: (second.tokens d ++ rest)) :=
    Closed.of_end (by decide) rfl
  rw [tokens]
  refine Gives.after_some (Gives.eat_true (by decide)) ((key.whole closed).bind ?_)
  refine (Gives.require (by decide)).bind ?_
  exact (value.whole (closed_case follow 0)).bind (Gives.ret _ _)

theorem branches_give {bs : List Branch} (some : bs ≠ [])
    (each : ∀ b ∈ bs, level.ReadsValue d b.key ∧ level.ReadsValue d b.value)
    (follow : HeadIn (caseTokens.tail) rest) :
    (branches level).Gives (bs.flatMap (branchTokens d) ++ rest) bs rest := by
  have many : (Rule.many (after (eatKeyword "when") (branch level))).Gives
      (bs.flatMap (branchTokens d) ++ rest) bs rest := by
    refine (Yielding.of_each (HeadIn caseTokens) ?_ ?_ ?_ ?_ ?_).many
    · intro b _
      simp [branchTokens]
    · intro b mem rest follow
      exact branch_gives (each b mem).1 (each b mem).2 follow
    · intro b _ rest
      exact HeadIn.cons (by decide) _
    · exact follow.mono fun t mem => List.mem_of_mem_tail mem
    · exact Gives.after_none (Gives.eat_false (follow.lacks (by decide)))
  refine many.bind (Gives.iteFalse ?_ (Gives.ret _ _))
  simpa using some

theorem otherwise_gives {otherwise : Option Expr} (h : ∀ e ∈ otherwise, level.ReadsValue d e) :
    (after (eatKeyword "else") (level.expr 0)).Gives
      (elseTokens d otherwise ++ keywordToken "end" :: rest) otherwise
        (keywordToken "end" :: rest) := by
  cases otherwise with
  | none => exact Gives.after_none (Gives.eat_false (lacks_head (by decide)))
  | some e =>
    have closed : Closed 0 (keywordToken "end" :: rest) := closed_case (.cons (by decide) rest) 0
    exact Gives.after_some (Gives.eat_true (by decide)) ((h e rfl).whole closed)

theorem case_operand {subject : Option Expr} {switch : Switch} (inside : scope.inside = some level)
    (h : CaseReads d level subject switch) : ReadsOperand d scope (.case subject switch) := by
  intro rest _
  obtain ⟨bs, otherwise⟩ := switch
  have tokens : (Expr.case subject ⟨bs, otherwise⟩).tokens d ++ rest = keywordToken "case" ::
      (optionTokens d subject ++ (bs.flatMap (branchTokens d) ++
        (elseTokens d otherwise ++ keywordToken "end" :: rest))) := by
    simp [tokens_case]
  have head : HeadIn (caseTokens.tail) (elseTokens d otherwise ++ keywordToken "end" :: rest) := by
    cases otherwise <;> exact HeadIn.cons (by decide) _
  have subjectReads : (caseSubject level).Gives (optionTokens d subject ++
      (bs.flatMap (branchTokens d) ++ (elseTokens d otherwise ++ keywordToken "end" :: rest)))
      subject (bs.flatMap (branchTokens d) ++
        (elseTokens d otherwise ++ keywordToken "end" :: rest)) := by
    obtain ⟨b, bs, rfl⟩ := List.exists_cons_of_ne_nil h.branches
    exact caseSubject_gives h.subject _
  rw [tokens]
  refine operand_of_keyword (by decide) ?_
  refine Gives.iteFalse (by decide) (Gives.iteFalse (by decide) (Gives.iteTrue (by decide) ?_))
  refine (Gives.skip _ _).bind (Gives.enter inside (subjectReads.bind ?_))
  refine (branches_give h.branches h.each head).bind ((otherwise_gives h.otherwise).bind ?_)
  exact (Gives.require (by decide)).bind (Gives.ret _ _)

theorem tokens_castCall {ref : TypeRef} (other : e.isPrimary = false) :
    (Expr.cast e ref).tokens d = keywordToken "cast" :: openToken ::
      (e.tokens d ++ (keywordToken "as" :: (Mark.read (ref.marks d) ++ [closeToken]))) := by
  have cast : (Mark.plain "cast").tokens = [keywordToken "cast"] := by decide
  have as : (Mark.plain "as").tokens = [keywordToken "as"] := by decide
  simp [Expr.tokens, Expr.marks, castMarks, other, cast, as]

/-- A cast whose input could not stand before two colons. -/
theorem castCall_operand {ref : TypeRef} (inside : scope.inside = some level)
    (other : e.isPrimary = false) (input : level.ReadsValue d e) (fits : IsTypeName ref.name)
    (argument : ∀ a ∈ ref.argument, ∃ es, a = .list es ∧ es ≠ [] ∧ ∀ v ∈ es, level.ReadsValue d v) :
    ReadsOperand d scope (.cast e ref) := by
  intro rest _
  have tokens : (Expr.cast e ref).tokens d ++ rest = keywordToken "cast" :: openToken ::
      (e.tokens d ++ (keywordToken "as" :: (Mark.read (ref.marks d) ++ closeToken :: rest))) := by
    simp [tokens_castCall other]
  have closed : Closed 0 (keywordToken "as" :: (Mark.read (ref.marks d) ++ closeToken :: rest)) :=
    Closed.of_end (by decide) rfl
  rw [tokens]
  refine operand_of_keyword (by decide) ?_
  refine Gives.iteFalse (by decide) (Gives.iteFalse (by decide) (Gives.iteFalse (by decide) ?_))
  refine Gives.iteTrue (by decide) ((Gives.skip _ _).bind ((Gives.require rfl).bind ?_))
  refine Gives.enter inside ((input.whole closed).bind ((Gives.require (by decide)).bind ?_))
  refine (typeRef_gives fits argument (closed_close 0 rest)).bind ?_
  exact (Gives.require rfl).bind (Gives.ret _ _)

theorem array_keyword {ts : List Token}
    (h : (arrayExpr scope).Gives (keywordToken "array" :: ts) e rest) :
    (operand scope).Gives (keywordToken "array" :: ts) e rest := by
  refine operand_of_keyword (by decide) ?_
  refine Gives.iteFalse (by decide) (Gives.iteFalse (by decide) (Gives.iteFalse (by decide) ?_))
  exact Gives.iteFalse (by decide) (Gives.iteTrue (by decide) h)

theorem tokens_array : (Mark.plain "array").tokens = [keywordToken "array"] := by decide

theorem tokens_arrayList (es : List Expr) : (Expr.array (.list es)).tokens d =
    keywordToken "array" :: openBracketToken ::
      (commaTokens (es.map (Expr.tokens d)) ++ [closeBracketToken]) := by
  simp [Expr.tokens, Expr.marks, tokens_array, read_exprs]

theorem arrayList_operand {es : List Expr} (inside : scope.inside = some level)
    (h : ∀ e ∈ es, level.ReadsValue d e) (begins : ∀ e ∈ es, e.Begins d) :
    ReadsOperand d scope (.array (.list es)) := by
  intro rest _
  have tokens : (Expr.array (.list es)).tokens d ++ rest =
      keywordToken "array" :: openBracketToken ::
        (commaTokens (es.map (Expr.tokens d)) ++ closeBracketToken :: rest) := by
    simp [tokens_arrayList]
  rw [tokens]
  refine array_keyword ((Gives.skip _ _).bind (Gives.yes (Gives.eat_true rfl) ?_))
  refine Gives.enter inside ?_
  refine (valuesBefore_give (t := closeBracketToken) rfl (.inr rfl) h begins).bind ?_
  exact (Gives.require rfl).bind (Gives.ret _ _)

theorem tokens_arrayQuery (q : Query) : (Expr.array (.inlineQuery q)).tokens d =
    keywordToken "array" :: (Expr.inlineQuery q).tokens d := by
  simp [Expr.tokens, Expr.marks, tokens_array]

theorem arrayQuery_operand {q : Query} (inside : scope.inside = some level)
    (h : level.ReadsQuery d q) (begins : q.Begins d) :
    ReadsOperand d scope (.array (.inlineQuery q)) := by
  intro rest _
  have read := parenthesizedQuery_gives inside h rest
  have second := second_query begins openToken (closeToken :: rest)
  rw [tokens_arrayQuery]
  simp only [tokens_inlineQuery, List.cons_append, List.append_assoc, List.nil_append] at read ⊢
  refine array_keyword ((Gives.skip _ _).bind (Gives.no (Gives.eat_false (lacks_head rfl)) ?_))
  refine (Gives.look_true (t := openToken) rfl).bind ((startsQuery_gives 1 _).bind ?_)
  rw [second]
  exact Gives.iteTrue rfl (read.map _)

theorem tokens_exists (q : Query) : (Expr.unary "exists" (.inlineQuery q)).tokens d =
    keywordToken "exists" :: (Expr.inlineQuery q).tokens d := by
  have keyword : (rawMark "exists").tokens = [keywordToken "exists"] := by decide
  simp [Expr.tokens, Expr.marks, keyword]

theorem exists_operand {q : Query} (inside : scope.inside = some level)
    (h : level.ReadsQuery d q) : ReadsOperand d scope (.unary "exists" (.inlineQuery q)) := by
  intro rest _
  rw [tokens_exists]
  refine operand_of_keyword (by decide) ?_
  refine Gives.iteFalse (by decide) (Gives.iteFalse (by decide) (Gives.iteFalse (by decide) ?_))
  refine Gives.iteFalse (by decide) (Gives.iteFalse (by decide) (Gives.iteTrue (by decide) ?_))
  exact (Gives.skip _ _).bind ((parenthesizedQuery_gives inside h rest).map _)

/-- Every operator in front of an operand is written as its token, from which it is read. -/
theorem prefix_tokens : ∀ entry ∈ Power.prefixes, (rawMark entry.1).tokens = [Power.token entry.1] ∧
    Power.unary? (Power.token entry.1) = some entry.2 ∧ (Power.token entry.1).opensValue = true := by
  decide

theorem tokens_unary {operator : String} {power : Nat}
    (found : Power.prefix? operator = some power) :
    (Expr.unary operator e).tokens d = Power.token operator :: e.tokens d := by
  simp [Expr.tokens, Expr.marks, (prefix_tokens _ (Power.prefix?_mem found)).1]

theorem unary_operand {operator : String} {power : Nat}
    (found : Power.prefix? operator = some power) (h : scope.here.ReadsValue d e)
    (spine : power ≤ e.spine) : ReadsOperand d scope (.unary operator e) := by
  intro rest closed
  rw [Expr.edge, found] at closed
  rw [tokens_unary found]
  refine (Gives.peek _).bind ?_
  simp only [List.cons_append, List.head?_cons, (prefix_tokens _ (Power.prefix?_mem found)).2.1]
  exact (Gives.skip _ _).bind ((h power rest spine closed).map _)

end SqlQuery.Grammar
