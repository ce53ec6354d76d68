import SqlQuery.Proofs.Scanning.Expression

/-!
Operators stand with their operands: in front of one, between two, and in casts.
-/

namespace SqlQuery

open Mark

variable {d : Dialect} [d.Readable] {previous : Option Token} {cs : List Char}

/-- An operator by its text. -/
def symbolToken (operator : String) : Token := ⟨.operator, operator⟩

/-- The keywords between operands go with every value after them. -/
theorem keywords_follow : ∀ entry ∈ Power.keywords, Keyword.isComplete entry.1 = true ∧
    Text.trim entry.1 = entry.1 ∧ (keywordToken entry.1).isCommand "array" = false ∧
      (keywordToken entry.1).expectsOperand = true ∧
        (entry.1 ∈ Keyword.beginnings → entry.1 = "is") := by
  decide

theorem signs_read : ∀ operator ∈ Power.signs, Text.trim operator = operator ∧
    plainTokens operator = [symbolToken operator] ∧
      operator.toList.head?.any Char.isAlpha = false ∧
        ∃ c ∈ openChars, operator.toList = [c] := by
  intro operator mem
  simp only [Power.signs, List.mem_cons, List.not_mem_nil, or_false] at mem
  rcases mem with rfl | rfl | rfl
  · exact ⟨by decide, by decide +kernel, by decide, '-', by decide, rfl⟩
  · exact ⟨by decide, by decide +kernel, by decide, '+', by decide, rfl⟩
  · exact ⟨by decide, by decide +kernel, by decide, '~', by decide, rfl⟩

/-- The text begins with a sign, so that another sign in front stands apart. -/
def beginsSigned (cs : List Char) : Bool := cs.head?.any fun c => c == '-' || c == '+'

namespace Expr

variable {e left right : Expr}

omit [d.Readable] in
theorem marks_sign {operator : String} (mem : operator ∈ Power.signs) :
    (Expr.unary operator e).marks d =
      if beginsSigned (spellAll d (e.marks d)) then
        .plain operator :: .blank :: e.marks d
      else .plain operator :: e.marks d := by
  obtain ⟨trim, _, symbol, _⟩ := signs_read operator mem
  rw [Expr.marks, unaryMarks]
  simp only [trim, symbol, Bool.false_or]
  rfl

omit [d.Readable] in
theorem marks_not : (Expr.unary "not" e).marks d =
    .plain "not" :: .blank :: e.marks d := by
  have trim : Text.trim "not" = "not" := by decide
  rw [Expr.marks, unaryMarks]
  simp [trim]

omit [d.Readable] in
/-- A sign stands in front of its operand, apart from another sign. It is no part of a number, which
would be read together with it only where an operand is expected. -/
theorem stands_sign {operator : String} (mem : operator ∈ Power.signs) (h : e.Seated d)
    (star : e.leadsStar = false)
    (loose : (Expr.unary operator e).leadsLooseSign = true →
      previous.all Token.expectsOperand = false)
    (operand : Stands d (lastRead previous [.plain operator]) (e.marks d) cs) :
    Stands d previous ((Expr.unary operator e).marks d) cs := by
  obtain ⟨c, rest, text, blank, other, isStar, digit⟩ := (h.opens [] .nil).start
  rw [List.append_nil] at text
  have space : Text.isBlank ' ' = true := by decide
  rw [marks_sign mem]
  split
  case isTrue signed =>
    have isSign : c = '-' ∨ c = '+' := by simpa [beginsSigned, text] using signed
    refine .then_blank (.sign mem (fun _ _ => ?_) ?_) operand
    · rw [text]
      rcases isSign with rfl | rfl <;> simp [space, blank, Lexeme.Literal.startsNumber]
    · intro tail head
      obtain rfl : ' ' = tail := by simpa using head
      decide
  case isFalse signed =>
    have unlike : c ≠ '-' ∧ c ≠ '+' := by simpa [beginsSigned, text] using signed
    refine .append (a := [.plain operator]) (.sign mem (fun isSign expects => ?_) ?_) operand
    · have unsigned : e.leadsUnsigned = false := by
        refine Bool.eq_false_iff.2 fun leads => ?_
        have signed : (Expr.unary operator e).leadsLooseSign = true := by
          simp only [leadsLooseSign, first, leads, Bool.and_true, List.contains_iff_mem]
          exact isSign
        rw [loose signed] at expects
        cases expects
      have plain : c.isDigit = false := by
        rw [unsigned] at digit
        simpa using digit
      have point : c ≠ '.' := fun same => other (by simp [same])
      simp [text, blank, Lexeme.Literal.startsNumber, plain, point]
    · intro tail head
      obtain rfl : c = tail := by simpa [text] using head
      have notStar : c ≠ '*' := by
        intro same
        rw [isStar same] at star
        cases star
      have greater : c ≠ '>' := fun same => other (by simp [same])
      simp [Scans.signTails, unlike.1, greater, notStar]

omit [d.Readable] in
/-- A sign in front of its operand. -/
theorem placed_sign {operator : String} (mem : operator ∈ Power.signs)
    (legible : (Expr.unary operator e).Legible d) (h : e.Seated d) :
    (Expr.unary operator e).Placed d := by
  have star : e.leadsStar = false := legible mem
  obtain ⟨_, tokens, _, c, opening, chars⟩ := signs_read operator mem
  have follows : e.Follows (some (symbolToken operator)) := h.follows_starless rfl rfl star
  have seen (previous : Option Token) :
      lastRead previous [.plain operator] = some (symbolToken operator) :=
    lastRead_of_tokens (m := .plain operator) tokens previous
  constructor
  · intro previous own cs ending
    have last : Ending d (e.marks d) cs := by
      rw [marks_sign mem] at ending
      split at ending
      · exact ending.of_cons.of_cons
      · exact ending.of_cons
    refine stands_sign mem h star own.sign ?_
    rw [seen]
    exact h.settles _ follows cs last
  · intro previous _
    have last := h.closes _ follows
    rw [marks_sign mem]
    split
    · rw [lastRead_cons, lastRead_cons, lastRead_blank, seen]
      exact last
    · rw [lastRead_cons, seen]
      exact last
  · intro cs ending
    have spelled : (Mark.plain operator).spell d = [c] := chars
    rw [marks_sign mem]
    split
    all_goals
      rw [spellAll_cons, spelled]
      exact .of_char opening _

omit [d.Readable] in
theorem placed_not (h : e.Seated d) : (Expr.unary "not" e).Placed d := by
  have complete : Keyword.isComplete "not" = true := by decide
  have follows : e.Follows (some (keywordToken "not")) := h.follows rfl rfl rfl
  constructor
  · intro previous _
    rw [marks_not]
    exact .keyword_apart complete
      (fun cs ending => (h.opens cs ending).alone (by decide) nofun) (h.settles _ follows)
  · intro previous _
    rw [marks_not, lastRead_cons, lastRead_cons, lastRead_blank,
      lastRead_of_tokens (tokens_keyword complete)]
    exact h.closes _ follows
  · intro cs ending
    rw [marks_not]
    exact .of_keyword "not" (by decide) (fun _ => rfl) (.cons (by decide) _)

theorem placed_exists {q : Query} (h : Settles d (some openToken) (q.marks d)) :
    (Expr.unary "exists" (.inlineQuery q)).Placed d := by
  have complete : Keyword.isComplete "exists" = true := by decide
  have trim : Text.trim "exists" = "exists" := by decide
  have marks : (Expr.unary "exists" (.inlineQuery q)).marks d =
      .plain "exists" :: .blank :: inParens (q.marks d) := by
    rw [Expr.marks, unaryMarks]
    simp [trim, Expr.marks]
  constructor
  · intro previous _
    rw [marks]
    exact .keyword_then complete (Keyword.not_extendable (by decide)) fun cs _ => h.parens cs
  · intro previous _
    rw [marks, lastRead_cons, lastRead_cons, lastRead_inParens]
    rfl
  · intro cs _
    rw [marks]
    exact .of_keyword "exists" (by decide) (fun same => absurd same (by decide)) (.cons (by decide) _)

/-- The left operand, a blank, and what comes after it. -/
theorem settles_left {more : List Mark} (h : left.Placed d) (follows : left.Follows previous)
    (later : ∀ last, last.any Token.closes = true → Settles d last more) :
    Settles d previous (left.marks d ++ .blank :: more) :=
  (h.settles previous follows).then_blank (later _ (h.closes previous follows))

theorem opens_left {more : List Mark} (h : left.Placed d)
    (marks : e.marks d = left.marks d ++ .blank :: more)
    (first : e.first = left.first) (cs : List Char) :
    e.OpensAs (spellAll d (e.marks d) ++ cs) := by
  rw [marks, spellAll_append, List.append_assoc]
  exact (h.opens _ (.blank _)).extend first

omit [d.Readable] in
theorem marks_binary (operator : String) : (Expr.binary left operator right).marks d =
    left.marks d ++ .blank :: ([rawMark operator] ++ .blank :: right.marks d) := by
  rw [Expr.marks, spaced_cons_cons, spaced_cons_cons, spaced_singleton]

/-- An operator between two operands. -/
theorem placed_binary {operator : String} {power : Nat}
    (found : Power.infix? operator = some power)
    (legible : (Expr.binary left operator right).Legible d) (first : left.Placed d)
    (second : right.Seated d) : (Expr.binary left operator right).Placed d := by
  obtain ⟨_, negated, star⟩ := legible
  obtain ⟨trim, t, tokens, follows, stands⟩ : Text.trim operator = operator ∧
      ∃ t, plainTokens operator = [t] ∧ right.Follows (some t) ∧
        ∀ last : Option Token, last.any Token.closes = true → ∀ cs, Ending d (right.marks d) cs →
          Stands d last [.plain operator]
            (' ' :: (spellAll d (right.marks d) ++ cs)) := by
    rcases List.mem_append.1 (Power.infix?_mem found) with keyword | symbol
    · obtain ⟨complete, trim, clear, operand, single⟩ := keywords_follow _ keyword
      refine ⟨trim, keywordToken operator, tokens_keyword complete,
        second.follows clear operand operand, fun last _ cs ending => ?_⟩
      refine .keyword complete (.cons (by decide) _) ?_
      by_cases extendable : Keyword.isExtendable operator = true
      · have same : operator = "is" := single (Keyword.mem_beginnings extendable)
        rw [same]
        exact (second.opens cs ending).alone (by decide) fun _ => negated same
      · exact Lexeme.Name.longerKeyword?_alone (by simpa using extendable)
    · obtain ⟨trim, tokens⟩ := Power.symbols_plain _ symbol
      have follows : right.Follows (some (symbolToken operator)) :=
        second.follows_starless rfl rfl (star ⟨power, symbol⟩)
      exact ⟨trim, symbolToken operator, tokens, follows,
        fun last closes cs _ => .operator symbol closes⟩
  have raw : [rawMark operator] = [.plain operator] := by rw [rawMark, trim]
  have seen (last : Option Token) : lastRead last [.plain operator] = some t :=
    lastRead_of_tokens (m := .plain operator) tokens last
  have marks : (Expr.binary left operator right).marks d = _ := marks_binary operator
  rw [raw] at marks
  constructor
  · intro previous leftFollows
    rw [marks]
    refine settles_left first (leftFollows.of_first rfl) fun last closes cs ending => ?_
    have ended : Ending d (right.marks d) cs := ending.of_append.of_cons
    refine .then_blank (stands last closes cs ended) ?_
    rw [seen]
    exact second.settles _ follows cs ended
  · intro previous _
    rw [marks, lastRead_append, lastRead_cons, lastRead_append, seen, lastRead_cons, lastRead_blank]
    exact second.closes _ follows
  · intro cs _
    exact opens_left first marks rfl cs

theorem placed_between {operand lower upper : Expr} {negated : Bool} (first : operand.Placed d)
    (second : lower.Seated d) (third : upper.Seated d) :
    (Expr.between operand lower upper negated).Placed d := by
  have word : Keyword.isComplete (betweenWord negated) = true ∧
      betweenWord negated ∉ Keyword.beginnings ∧
        (keywordToken (betweenWord negated)).isCommand "array" = false ∧
          (keywordToken (betweenWord negated)).expectsOperand = true := by
    cases negated <;> decide
  obtain ⟨complete, single, clear, expects⟩ := word
  have and : Keyword.isComplete "and" = true := by decide
  have marks : (Expr.between operand lower upper negated).marks d =
      operand.marks d ++ .blank :: .plain (betweenWord negated) :: .blank ::
        (lower.marks d ++ .blank :: .plain "and" :: .blank :: upper.marks d) := by
    simp [Expr.marks, spaced_cons_cons]
  have follows : upper.Follows (some (keywordToken "and")) := third.follows rfl rfl rfl
  constructor
  · intro previous operandFollows
    rw [marks]
    refine settles_left first (operandFollows.of_first rfl) fun last _ => ?_
    refine .keyword_then complete (Keyword.not_extendable single) ?_
    refine settles_left second.toPlaced (second.follows clear expects expects) fun last _ => ?_
    exact .keyword_then and (Keyword.not_extendable (by decide)) (third.settles _ follows)
  · intro previous _
    rw [marks, lastRead_append, lastRead_blank, lastRead_cons, lastRead_blank, lastRead_append,
      lastRead_blank, lastRead_cons, lastRead_blank, lastRead_of_tokens (tokens_keyword and)]
    exact third.closes _ follows
  · intro cs _
    exact opens_left first marks rfl cs

end Expr

/-- A type stands where no keyword goes on with its name, and ends with a token that closes it. -/
structure TypeRef.Placed (d : Dialect) (ref : TypeRef) : Prop where
  stands : ∀ previous cs, Ending d (ref.marks d) cs →
    (ref.argument = none → Lexeme.Name.longerKeyword? ref.name cs = none) →
      Stands d previous (ref.marks d) cs
  closes : ∀ previous, (lastRead previous (ref.marks d)).any Token.closes = true

omit [d.Readable] in
theorem typeName_closes {name : String} (isName : IsTypeName name) (previous : Option Token) :
    (lastRead previous [rawMark name]).any Token.closes = true := by
  have last : ((rawMark name).tokens.getLast?).any Token.closes = true := by
    by_cases long : name ∈ longTypes
    · have facts : ∀ name ∈ longTypes,
          ((rawMark name).tokens.getLast?).any Token.closes = true := by
        decide +kernel
      exact facts name long
    · rw [(isName.resolve_left long).1.mark]
      rfl
  rw [lastRead, read_cons, read_nil, List.append_nil, lastOf]
  cases found : (rawMark name).tokens.getLast? with
  | none => simp [found] at last
  | some t => simpa [found] using last

theorem TypeRef.placed {ref : TypeRef} (isName : IsTypeName ref.name)
    (legible : ref.name ∈ longTypes ∨ IsWordText ref.name.toList)
    (argument : ∀ a ∈ ref.argument, Settles d (some openToken) (a.marks d)) :
    ref.Placed d := by
  obtain ⟨name, found⟩ := ref
  cases found with
  | none =>
    have marks : TypeRef.marks d ⟨name, none⟩ = [rawMark name] := by rw [TypeRef.marks]
    refine ⟨fun previous cs ending alone => ?_, fun previous => ?_⟩
    · rw [marks]
      exact .typeName isName legible ending.boundary (alone rfl)
    · rw [marks]
      exact typeName_closes isName previous
  | some a =>
    have marks : TypeRef.marks d ⟨name, some a⟩ =
        rawMark name :: inParens (a.marks d) := by rw [TypeRef.marks]
    refine ⟨fun previous cs _ _ => ?_, fun previous => ?_⟩
    · rw [marks]
      refine .append (a := [rawMark name]) ?_ ((argument a rfl).parens cs)
      exact .typeName isName legible (.cons (by decide) _)
        (Lexeme.Name.longerKeyword?_mark (by decide) (by decide) _)
    · rw [marks, lastRead_cons, lastRead_inParens]
      rfl

namespace Expr

variable {e left right : Expr}

theorem placed_colons {ref : TypeRef} (primary : e.isPrimary = true) (h : e.Placed d)
    (type : ref.Placed d)
    (alone : ref.argument = none → Keyword.isExtendable ref.name = false) :
    (Expr.cast e ref).Placed d := by
  have marks : (Expr.cast e ref).marks d =
      e.marks d ++ ([Mark.plain "::"] ++ ref.marks d) := by
    simp [Expr.marks, castMarks, primary]
  have first : (Expr.cast e ref).first = e.first := by rw [Expr.first, if_pos primary]
  constructor
  · intro previous follows cs ending
    have input := h.settles previous (follows.of_first first)
    rw [marks] at ending ⊢
    refine .append (input _ (.colon _)) (.append .colons ?_)
    exact type.stands _ cs ending.of_append.of_append fun none =>
      Lexeme.Name.longerKeyword?_alone (alone none)
  · intro previous _
    rw [marks, lastRead_append, lastRead_append]
    exact type.closes _
  · intro cs _
    rw [marks, spellAll_append, List.append_assoc]
    exact (h.opens _ (.colon _)).extend first

theorem placed_castCall {ref : TypeRef} (other : e.isPrimary = false) (h : e.Seated d)
    (type : ref.Placed d) : (Expr.cast e ref).Placed d := by
  have complete : Keyword.isComplete "cast" = true := by decide
  have as : Keyword.isComplete "as" = true := by decide
  have marks : (Expr.cast e ref).marks d = [Mark.plain "cast"] ++ inParens
      (e.marks d ++ .blank :: .plain "as" :: .blank :: ref.marks d) := by
    simp [Expr.marks, castMarks, other, spaced_cons_cons]
  -- The type is followed by the closing parenthesis, so its name may begin a phrase.
  have inner (cs : List Char) : Stands d (some openToken)
      (e.marks d ++ .blank :: ([Mark.plain "as"] ++ .blank :: ref.marks d)) (')' :: cs) := by
    have input := h.settles (some openToken) (h.follows rfl rfl rfl)
    refine .then_blank (input _ (.blank _)) (.then_blank ?_ ?_)
    · exact .keyword as (.cons (by decide) _)
        (Lexeme.Name.longerKeyword?_alone (Keyword.not_extendable (by decide)))
    · exact type.stands _ _ (.closeParen _) fun _ =>
        Lexeme.Name.longerKeyword?_mark (by decide) (by decide) cs
  constructor
  · intro previous _ cs _
    rw [marks]
    exact .append (.keyword complete (.cons (by decide) _)
      (Lexeme.Name.longerKeyword?_single (by decide))) (.parens (inner cs))
  · intro previous _
    rw [marks, lastRead_append, lastRead_inParens]
    rfl
  · intro cs _
    rw [marks]
    exact .of_keyword "cast" (by decide) (fun same => absurd same (by decide)) (.cons (by decide) _)

/-- No keyword begins with a specifier that touches its string. -/
theorem opens_tight {specifier : String} (tight : specifier ∈ tightSpecifiers) (cs : List Char) :
    e.OpensAs (specifier.toList ++ '\x27' :: cs) := by
  have start (c : Char) (rest : List Char) (blank : Text.isBlank c = false) (digit : c.isDigit = false)
      (other : c ∉ ['>', '.'] ∧ c ≠ '*')
      (word : Keyword.isReserved (Lexeme.Name.firstWord (c :: rest)) = false) :
      e.OpensAs (c :: rest) := by
    refine ⟨⟨c, rest, rfl, blank, other.1, fun star => absurd star other.2, fun same => ?_⟩,
      fun reserved => ?_⟩
    · rw [digit] at same
      cases same
    · rw [word] at reserved
      cases reserved
  simp only [tightSpecifiers, List.mem_cons, List.not_mem_nil, or_false] at tight
  rcases tight with rfl | rfl | rfl | rfl
  · exact start 'e' _ (by decide) (by decide) (by decide) rfl
  · exact start 'x' _ (by decide) (by decide) (by decide) rfl
  · exact start 'b' _ (by decide) (by decide) (by decide) rfl
  · exact start 'u' _ (by decide) (by decide) (by decide) rfl

omit [d.Readable] in
theorem placed_tightString {specifier text : String} (tight : specifier ∈ tightSpecifiers)
    (closed : isClosedBody text.toList = true) :
    (Expr.specifiedString specifier (.string text)).Placed d := by
  obtain ⟨trim, lower⟩ := tightSpecifiers_plain specifier tight
  have marks : (Expr.specifiedString specifier (.string text)).marks d =
      [.specified specifier (.string text)] := by
    simp [Expr.marks, specifiedMarks, trim, lower, tight]
  have spelled : (Mark.specified specifier (.string text)).spell d =
      specifier.toList ++ spellString text := rfl
  constructor
  · intro previous _ cs ending
    rw [marks]
    refine .one rfl fun ts later => ?_
    rw [spelled, List.append_assoc]
    exact .specified tight closed (ending.ne (by decide)) later
  · intro previous _
    rw [marks, lastRead_of_tokens rfl]
    rfl
  · intro cs _
    rw [marks, spellAll_singleton, spelled, spellString, List.append_assoc]
    exact opens_tight tight _

omit [d.Readable] in
theorem placed_typedString {specifier text : String} (loose : specifier ∉ tightSpecifiers)
    (word : IsWord specifier) (lower : IsLower specifier) (chars : IsWordText specifier.toList)
    (closed : isClosedBody text.toList = true) :
    (Expr.specifiedString specifier (.string text)).Placed d := by
  have trim := word.1.trim
  rw [IsLower] at lower
  have marks : (Expr.specifiedString specifier (.string text)).marks d =
      [rawMark specifier] ++ .blank :: [.literal (.string text)] := by
    simp [Expr.marks, specifiedMarks, trim, lower, loose, rawMark]
  have string : (Expr.literal (.string text)).Placed d := placed_literal closed
  have follows : (Expr.literal (.string text)).Follows (some (wordToken specifier)) :=
    ⟨.of_ne rfl, fun signed => absurd signed Bool.false_ne_true,
      fun loose => absurd loose Bool.false_ne_true, fun star => absurd star Bool.false_ne_true⟩
  have seen (previous : Option Token) :
      lastRead previous [rawMark specifier] = some (wordToken specifier) :=
    lastRead_of_tokens word.mark previous
  constructor
  · intro previous _ cs ending
    rw [marks] at ending ⊢
    refine .then_blank (.bare word lower chars (.cons (by decide) _) ?_) ?_
    · refine Lexeme.Name.longerKeyword?_boundary ?_
      rintro _ ⟨⟩
      rfl
    · rw [seen]
      exact string.settles _ follows cs ending.of_append.of_cons
  · intro previous _
    rw [marks, lastRead_append, lastRead_blank, seen]
    exact string.closes _ follows
  · intro cs _
    have plain : Keyword.isReserved specifier = false := by
      have tokens := word.2
      unfold plainTokens at tokens
      split at tokens
      · simp at tokens
      · rename_i incomplete
        simp only [Keyword.isComplete, Bool.or_eq_true, not_or, Bool.not_eq_true] at incomplete
        exact incomplete.1
    rw [marks, spellAll_append, spellAll_singleton, List.append_assoc]
    have spelled : (rawMark specifier).spell d = specifier.toList := by
      rw [rawMark, trim]
      rfl
    rw [spelled]
    refine .of_word chars (.cons (by decide) _) fun reserved => ?_
    change Keyword.isReserved (Text.lower specifier) = true at reserved
    rw [lower, plain] at reserved
    cases reserved

end Expr

end SqlQuery
