import SqlQuery.Proofs.Reading.Operand

/-!
Names are read back: columns, strings after the name of a type, and calls with their arguments.
-/

namespace SqlQuery

namespace Grammar

open Rule

variable {d : Dialect} {scope : Scope} {level : Level} {e : Expr} {rest : List Token}

/-- No point follows a name, unless it is the wildcard. -/
theorem pathUpTo_gives {name : String} (last : name ≠ wildcardName → Lacks (isKind .dot) rest)
    (namespaces : List String) (names : ∀ n ∈ namespaces, IsName n) (bound : List Token)
    (long : namespaces.length < bound.length) :
    (pathUpTo bound).Gives (dotted namespaces ++ wordToken name :: rest) (namespaces ++ [name])
      rest := by
  induction namespaces generalizing bound with
  | nil =>
    cases bound with
    | nil => simp at long
    | cons t bound =>
      refine (Gives.expect (a := name) rfl).bind ?_
      by_cases star : name = wildcardName
      · exact Gives.iteTrue (by simp [star]) (Gives.ret _ _)
      · refine Gives.iteFalse (by simp [star]) ?_
        exact Gives.no (Gives.eat_false (last star)) (Gives.ret _ _)
  | cons first namespaces ih =>
    cases bound with
    | nil => simp at long
    | cons t bound =>
      have star : first ≠ wildcardName := names first List.mem_cons_self
      have later := ih (fun n mem => names n (List.mem_cons_of_mem first mem)) bound
        (by simpa using long)
      refine (Gives.expect (a := first) rfl).bind (Gives.iteFalse (by simp [star]) ?_)
      exact Gives.yes (Gives.eat_true (t := dotToken) rfl) (later.bind (Gives.ret _ _))

theorem path_gives {namespaces : List String} {name : String}
    (names : ∀ n ∈ namespaces, IsName n) (last : name ≠ wildcardName → Lacks (isKind .dot) rest) :
    path.Gives (dotted namespaces ++ wordToken name :: rest) (namespaces ++ [name]) rest := by
  refine pathUpTo_gives last namespaces names _ ?_
  have long : namespaces.length ≤ (dotted namespaces).length := by
    simp only [dotted, List.length_flatMap, List.length_cons, List.length_nil]
    simp only [Nat.zero_add, Nat.reduceAdd, List.map_const', List.sum_replicate_nat]
    omega
  simp only [List.length_append, List.length_cons]
  omega

theorem lacks_of_closed {bound : Nat} (closed : Closed bound rest) {p : Token → Bool}
    (test : ∀ t, t.extendsValue = false → p t = false) : Lacks p rest :=
  fun t head => test t (closed t head).1

theorem not_open_of_extends (t : Token) (plain : t.extendsValue = false) :
    isKind .openParen t = false := by
  cases kind : t.kind <;> simp_all [Token.extendsValue, isKind]

theorem not_dot_of_extends (t : Token) (plain : t.extendsValue = false) :
    isKind .dot t = false := by
  cases kind : t.kind <;> simp_all [Token.extendsValue, isKind]

theorem not_over_of_extends (t : Token) (plain : t.extendsValue = false) :
    t.isCommand "over" = false := by
  cases kind : t.kind <;> simp_all [Token.extendsValue, Token.isCommand]

theorem not_string_of_extends (t : Token) (plain : t.extendsValue = false) :
    (isKind .literal t && isQuoted t.text) = false := by
  cases kind : t.kind <;> simp_all [Token.extendsValue, isKind]

/-- What a path is read as, once its names are known. -/
theorem named_gives {namespaces : List String} {name : String} {ts : List Token}
    (names : ∀ n ∈ namespaces, IsName n) (last : name ≠ wildcardName → Lacks (isKind .dot) ts)
    (h : Gives (do
      let isCall ← look 0 (isKind .openParen)
      if !(name == wildcardName) && isCall then
        .function <$> functionCall scope namespaces name
      else
        match ← typedString (namespaces.isEmpty && !(name == wildcardName)) with
        | some text => return .specifiedString (Text.lower name) (.ofText text)
        | none => return .column ⟨namespaces, name⟩) ts e rest) :
    (operand scope).Gives (dotted namespaces ++ wordToken name :: ts) e rest := by
  have read : (named scope).Gives (dotted namespaces ++ wordToken name :: ts) e rest := by
    refine (path_gives names last).bind ?_
    simp only [List.dropLast_concat, List.getLastD_concat]
    exact h
  cases namespaces with
  | nil => exact operand_of_primary rfl read
  | cons first namespaces => exact operand_of_primary (t := wordToken first) rfl read

theorem tokens_column (ref : ColumnRef) :
    (Expr.column ref).tokens d = dotted ref.namespaces ++ [wordToken ref.column] := by
  simp [Expr.tokens, Expr.marks, ColumnRef.marks, Mark.read_qualify]

theorem column_operand {ref : ColumnRef} (names : ∀ n ∈ ref.namespaces, IsName n) :
    ReadsOperand d scope (.column ref) := by
  intro rest closed
  rw [tokens_column, List.append_assoc]
  refine named_gives names (fun _ => lacks_of_closed closed not_dot_of_extends) ?_
  refine (Gives.look_false (lacks_of_closed closed not_open_of_extends)).bind ?_
  refine Gives.iteFalse (by simp) ?_
  have none : (typedString (ref.namespaces.isEmpty && !(ref.column == wildcardName))).Gives rest
      none rest := by
    unfold typedString
    split
    · refine Gives.accept_none fun t head => ?_
      simp [lacks_of_closed closed not_string_of_extends t head]
    · exact Gives.ret _ _
  exact none.bind (Gives.ret _ _)

theorem tokens_tightString {specifier : String} (tight : specifier ∈ tightSpecifiers)
    (value : Literal) : (Expr.specifiedString specifier value).tokens d =
      [⟨.escapedString, specifier ++ String.ofList value.spell⟩] := by
  obtain ⟨trim, lower⟩ := tightSpecifiers_plain specifier tight
  simp [Expr.tokens, Expr.marks, specifiedMarks, trim, lower, tight, Mark.tokens]

theorem tokens_typedString {specifier : String} (loose : specifier ∉ tightSpecifiers)
    (word : IsWord specifier) (lower : IsLower specifier) (value : Literal) :
    (Expr.specifiedString specifier value).tokens d = [wordToken specifier, value.token] := by
  have plain : plainTokens specifier = [wordToken specifier] := word.2
  rw [IsLower] at lower
  simp [Expr.tokens, Expr.marks, specifiedMarks, word.1.trim, lower, loose, plain, Mark.tokens]

theorem specifiedString_operand {specifier : String} {value : Literal}
    (fits : FitsSpecifier specifier value) :
    ReadsOperand d scope (.specifiedString specifier value) := by
  intro rest _
  by_cases tight : specifier ∈ tightSpecifiers
  · rw [FitsSpecifier, if_pos tight] at fits
    rw [tokens_tightString tight]
    refine operand_of_primary rfl ((Gives.skip _ _).bind ?_)
    rw [fits]
    exact Gives.ret _ _
  · rw [FitsSpecifier, if_neg tight] at fits
    obtain ⟨word, lower, ⟨text, rfl⟩, value⟩ := fits
    rw [tokens_typedString tight word lower]
    have star := word.ne_wildcard
    have names : ∀ n ∈ ([] : List String), IsName n := by simp
    refine named_gives names (fun _ => lacks_head rfl) ?_
    refine (Gives.look_false (lacks_head rfl)).bind (Gives.iteFalse (by simp) ?_)
    have quoted : (typedString (([] : List String).isEmpty && !(specifier == wildcardName))).Gives
        (Literal.token (.string text) :: rest) (some (String.ofList (spellString text))) rest := by
      unfold typedString
      rw [if_pos (by simpa using star)]
      refine Gives.accept_some (t := Literal.token (.string text)) ?_
      simp [Literal.token, isKind, isQuoted_spellString]
    refine quoted.bind ?_
    simp only [ofText_string value]
    rw [lower]
    exact Gives.ret _ _

/-- What is read as the content of a call. -/
structure ContentReads (d : Dialect) (level : Level) (e : Expr) : Prop where
  fits : e.IsListing
  values : ∀ v ∈ e.listed, level.ReadsValue d v
  begins : ∀ v ∈ e.listed, v.Begins d

theorem tokens_listed (e : Expr) : e.tokens d = commaTokens (e.listed.map (Expr.tokens d)) := by
  cases e <;> simp [Expr.listed, commaTokens, Expr.tokens, Expr.marks, read_exprs]

theorem listed_ne_nil {e : Expr} (fits : e.IsListing) : e.listed ≠ [] := by
  cases e with
  | list values => exact fits.2.1
  | _ => exact List.cons_ne_nil _ _

theorem argumentValues_gives (h : ContentReads d level e) (closed : Closed 0 rest)
    (ended : Lacks (isKind .comma) rest) :
    (argumentValues level).Gives (e.tokens d ++ rest) e rest := by
  have read := values_give (listed_ne_nil h.fits) h.values closed ended
  rw [tokens_listed]
  refine read.bind ?_
  cases e with
  | list values =>
    match values, h.fits.1 with
    | _ :: _ :: _, _ => exact Gives.ret _ _
  | _ => exact Gives.ret _ _

/-- How content begins: no keyword of the argument rule stands there, and no wildcard. -/
theorem content_begins (h : ContentReads d level e)
    (avoids : ∀ v ∈ e.listed.head?, v.Avoids [wildcardName]) (rest : List Token) :
    ∃ t ts, e.tokens d ++ closeToken :: rest = t :: ts ∧ t.opensValue = true ∧
      (isKind .identifier t && t.text == wildcardName) = false ∧
        Lacks (fun t => t.isCommand "from") ts := by
  obtain ⟨v, vs, listed⟩ := List.exists_cons_of_ne_nil (listed_ne_nil h.fits)
  obtain ⟨t, ts, tokens, begin⟩ := h.begins v (by simp [listed])
  have split : e.tokens d ++ closeToken :: rest = t :: (ts ++
      ((vs.map (Expr.tokens d)).flatMap (commaToken :: ·) ++ closeToken :: rest)) := by
    rw [tokens_listed, listed]
    simp [commaTokens, tokens]
  refine ⟨t, _, split, begin.opens, ?_, ?_⟩
  · cases star : isKind .identifier t && t.text == wildcardName with
    | false => rfl
    | true =>
      simp only [Bool.and_eq_true, Token.isKind_iff, beq_iff_eq] at star
      have named := avoids v (by simp [listed]) t.text (begin.name star.1) wildcardName (by simp)
      rw [star.2] at named
      exact absurd named (by decide)
  · cases ts with
    | nil => cases vs <;> exact lacks_head rfl
    | cons u ts => exact lacks_head (begin.second u rfl)

/-- What is read as the argument of a call. -/
inductive ArgumentReads (d : Dialect) (level : Level) (name : String) : Option Expr → Prop
  | none : ArgumentReads d level name none
  | wildcard : ArgumentReads d level name (some (.column .wildcard))
  | query {q : Query} (reads : level.ReadsQuery d q) (begins : q.Begins d) :
      ArgumentReads d level name (some (.inlineQuery q))
  | distinct {e : Expr} (reads : ContentReads d level e) :
      ArgumentReads d level name (some (.unary "distinct" e))
  | extract {field : String} {e : Expr} (call : Text.lower name = "extract") (word : IsWord field)
      (lower : IsLower field) (reads : level.ReadsValue d e) :
      ArgumentReads d level name (some (.binary (.raw field) "from" e))
  | content {e : Expr} (single : ∀ q, e ≠ .inlineQuery q) (reads : ContentReads d level e)
      (avoids : ∀ v ∈ e.listed.head?, v.Avoids [wildcardName]) :
      ArgumentReads d level name (some e)

theorem lacks_close {t : Token} {ts : List Token} (opens : t.opensValue = true) :
    Lacks (isKind .closeParen) (t :: ts) :=
  lacks_head (Token.not_kind_of_opensValue opens (.inl rfl))

theorem extractField_none {name : String} {t : Token} {ts : List Token}
    (second : Lacks (fun t => t.isCommand "from") ts) :
    (extractField name).Gives (t :: ts) none (t :: ts) := by
  refine (Gives.look 1 _ _).bind (Gives.iteFalse ?_ (Gives.ret _ _))
  cases ts with
  | nil => simp
  | cons u ts => simp [second u rfl]

theorem query_head {q : Query} (begins : q.Begins d) (ts : List Token) :
    HeadIn (Token.queryKeywords.map keywordToken) (q.tokens d ++ ts) := by
  obtain ⟨t, more, tokens, opens⟩ := begins
  rw [tokens]
  refine HeadIn.cons ?_ _
  obtain ⟨kind, text⟩ := t
  simp only [Token.opensQuery, Bool.and_eq_true, beq_iff_eq, List.contains_eq_mem,
    decide_eq_true_eq] at opens
  obtain ⟨rfl, mem⟩ := opens
  exact List.mem_map_of_mem mem

/-- What is written of an argument that is no query begins like a value. -/
theorem argument_value {name : String} {argument : Option Expr} {t : Token} {ts : List Token}
    (opens : t.opensValue = true) (star : (isKind .identifier t && t.text == wildcardName) = false)
    (h : Gives (do
      match ← extractField name with
      | some field => return some (.binary (.raw field) "from" (← level.expr 0))
      | none => return some (← argumentValues level)) (t :: ts) argument rest) :
    (Grammar.argument name level).Gives (t :: ts) argument rest := by
  refine Gives.no (Gives.look_false (lacks_close opens)) ?_
  refine Gives.no (Gives.eat_false (lacks_head star)) ?_
  refine Gives.no (Gives.eat_false (lacks_head ?_)) ?_
  · exact Token.not_command_of_opensValue opens (by decide)
  refine (startsQuery_gives 0 _).bind (Gives.iteFalse ?_ h)
  simp [Token.not_query_of_opensValue opens]

theorem argument_gives {name : String} {argument : Option Expr}
    (h : ArgumentReads d level name argument) : (Grammar.argument name level).Gives
      (Mark.read (argumentMarks d argument) ++ closeToken :: rest) argument
        (closeToken :: rest) := by
  have closed := closed_close 0 rest
  have comma : Lacks (isKind .comma) (closeToken :: rest) := lacks_head rfl
  cases h with
  | none => exact Gives.yes (Gives.look_true rfl) (Gives.ret _ _)
  | wildcard =>
    change (Grammar.argument name level).Gives (wordToken wildcardName :: closeToken :: rest) _ _
    refine Gives.no (Gives.look_false (lacks_head rfl)) ?_
    exact Gives.yes (Gives.eat_true rfl) (Gives.ret _ _)
  | @query q reads begins =>
    have head := query_head begins (closeToken :: rest)
    have first : (q.tokens d ++ closeToken :: rest)[0]?.any Token.opensQuery = true := by
      obtain ⟨t, ts, tokens, opens⟩ := begins
      simpa [tokens] using opens
    refine Gives.no (Gives.look_false (head.lacks (by decide))) ?_
    refine Gives.no (Gives.eat_false (head.lacks (by decide))) ?_
    refine Gives.no (Gives.eat_false (head.lacks (by decide))) ?_
    refine (startsQuery_gives 0 _).bind (Gives.iteTrue first ?_)
    exact (reads _ (.cons (by decide) rest)).bind (Gives.ret _ _)
  | @distinct e reads =>
    have keyword : (rawMark "distinct").tokens = [keywordToken "distinct"] := by decide
    have tokens : Mark.read (argumentMarks d (some (.unary "distinct" e))) ++ closeToken :: rest =
        keywordToken "distinct" :: (e.tokens d ++ closeToken :: rest) := by
      simp [argumentMarks, Expr.marks, keyword, Expr.tokens]
    rw [tokens]
    refine Gives.no (Gives.look_false (lacks_head rfl)) ?_
    refine Gives.no (Gives.eat_false (lacks_head rfl)) ?_
    refine Gives.yes (Gives.eat_true rfl) ?_
    exact (argumentValues_gives reads closed comma).bind (Gives.ret _ _)
  | @extract field e call word lower reads =>
    have keyword : (rawMark "from").tokens = [keywordToken "from"] := by decide
    have tokens : Mark.read (argumentMarks d (some (.binary (.raw field) "from" e))) ++
        closeToken :: rest =
          wordToken field :: keywordToken "from" :: (e.tokens d ++ closeToken :: rest) := by
      simp [argumentMarks, Expr.marks, keyword, word.mark, Expr.tokens, wordToken]
    have found : (extractField name).Gives
        (wordToken field :: keywordToken "from" :: (e.tokens d ++ closeToken :: rest)) (some field)
        (e.tokens d ++ closeToken :: rest) := by
      refine (Gives.look 1 _ _).bind (Gives.iteTrue (by simp [call]; rfl) ?_)
      refine (Gives.accept_some (a := field) ?_).bind ((Gives.skip _ _).bind (Gives.ret _ _))
      simp only [wordToken, isKind, beq_self_eq_true, if_true]
      rw [lower]
    rw [tokens]
    refine argument_value rfl (by simpa [wordToken, isKind] using word.ne_wildcard) ?_
    exact found.bind ((reads.whole closed).bind (Gives.ret _ _))
  | @content e single reads avoids =>
    obtain ⟨t, ts, tokens, opens, star, second⟩ := content_begins reads avoids rest
    have read := argumentValues_gives reads closed comma
    have same : argumentMarks d (some e) = e.marks d := by
      cases e with
      | inlineQuery q => exact absurd rfl (single q)
      | _ => rfl
    rw [same]
    change (Grammar.argument name level).Gives (e.tokens d ++ closeToken :: rest) (some e) _
    rw [tokens] at read ⊢
    exact argument_value opens star ((extractField_none second).bind (read.bind (Gives.ret _ _)))

/-- What a call nests is read one level deeper, but a window by its name is not. -/
structure CallReads (d : Dialect) (scope : Scope) (call : FunctionCall) : Prop where
  argument : ∃ level, scope.inside = some level ∧ ArgumentReads d level call.name call.argument
  window : ∀ o ∈ call.window, OverReads d scope o
  fits : call.Fits

theorem tokens_call (call : FunctionCall) (plain : IsPlain call.name) :
    Mark.read (call.marks d) = dotted call.namespaces ++ wordToken call.name :: openToken ::
      (Mark.read (argumentMarks d call.argument) ++
        closeToken :: Mark.read (windowMarks d call.window)) := by
  obtain ⟨namespaces, name, argument, window⟩ := call
  have trim : Text.trim name = name := plain.trim
  simp [FunctionCall.marks, Mark.read_qualify, trim]

/-- A call after its name. -/
theorem functionCall_gives {call : FunctionCall} (h : CallReads d scope call)
    (closed : Closed Power.unbounded rest) :
    (functionCall scope call.namespaces call.name).Gives (openToken ::
      (Mark.read (argumentMarks d call.argument) ++
        closeToken :: (Mark.read (windowMarks d call.window) ++ rest))) call rest := by
  obtain ⟨namespaces, name, argument, window⟩ := call
  obtain ⟨level, inside, reads⟩ := h.argument
  have windowReads : (after (eatKeyword "over") (windowRef scope)).Gives
      (Mark.read (windowMarks d window) ++ rest) window rest := by
    cases window with
    | none => exact Gives.after_none (Gives.eat_false (lacks_of_closed closed not_over_of_extends))
    | some o => exact over_gives (h.window o rfl)
  refine (Gives.require rfl).bind ((Gives.enter inside ?_).bind (windowReads.bind (Gives.ret _ _)))
  exact (argument_gives reads).bind ((Gives.require rfl).bind (Gives.ret _ _))

theorem function_operand {call : FunctionCall} (h : CallReads d scope call) :
    ReadsOperand d scope (.function call) := by
  intro rest closed
  obtain ⟨plain, name, names, _⟩ := h.fits
  have star : call.name ≠ wildcardName := name
  have tokens : (Expr.function call).tokens d ++ rest = dotted call.namespaces ++
      wordToken call.name :: (openToken :: (Mark.read (argumentMarks d call.argument) ++
        closeToken :: (Mark.read (windowMarks d call.window) ++ rest))) := by
    simp [Expr.tokens, Expr.marks, tokens_call call plain]
  rw [tokens]
  refine named_gives names (fun _ => lacks_head rfl) ((Gives.look_true rfl).bind ?_)
  exact Gives.iteTrue (by simpa using star) ((functionCall_gives h closed).map _)

end Grammar

end SqlQuery
