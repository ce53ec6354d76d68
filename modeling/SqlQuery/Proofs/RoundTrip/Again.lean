import SqlQuery.Proofs.Nesting.Clause
import SqlQuery.Proofs.Parsed.Erase
import SqlQuery.Proofs.Parsed.Shape
import SqlQuery.Proofs.RoundTrip.Token
import SqlQuery.Proofs.RoundTrip.Tree
import SqlQuery.Proofs.RoundTrip.Word
import SqlQuery.Proofs.Written.Erase
import SqlQuery.Proofs.Written.Parsed

/-!
What is written of a parsed query is parsed as the query without its redundant aliases, and written as
the same text again, unless a piece of the text is taken for another one.
-/

namespace SqlQuery

/-- A word that is written without quotes and that the grammar takes for a name. -/
def IsBareName (name : String) : Prop := IsWord name ∧ isWordText name.toList = true

namespace Expr

/-- A parenthesis is written first, as before a list after `in`, and no query in it. -/
def leadsOpen (e : Expr) : Bool :=
  match e.first with
  | .paren _ | .tuple _ => true
  | _ => false

def isWildcard : Expr → Bool
  | .column ref => ref == .wildcard
  | _ => false

/-- The field of an extraction. -/
def field? : Expr → Option String
  | .raw field => some field
  | _ => none

/-- No piece of what is written of the value is taken for another one or read together with the next. -/
def Unmistakable : Expr → Prop
  | .function call => IsPlain call.name ∧ ∀ content ∈ call.argument, content.isWildcard = false →
      ∀ e ∈ content.listed.head?, e.Avoids [wildcardName]
  | .unary operator operand => operator ∈ Power.signs → operand.leadsStar = false
  | .binary left operator right => (∀ field ∈ left.field?, IsBareName field) ∧
      (operator = "is" → right.leadsNot = false) ∧
      (operator ∈ Power.symbols.map Prod.fst → right.leadsStar = false) ∧
      (Power.isMembership operator = true → right.isTuple = false → right.leadsOpen = false)
  | .array content => ∀ e ∈ content.listed.head?, e.leadsStar = false
  | .cast input ref => input.isPrimary = true → ref.argument.isNone = true →
      Keyword.isExtendable ref.name = false
  | .type ref => ref.name ∈ longTypes ∨ IsBareName ref.name
  | .specifiedString specifier _ => specifier ∈ tightSpecifiers ∨ IsBareName specifier
  | _ => True

end Expr

/-- Rows are told apart by some values. -/
def SelectClause.isOn (c : SelectClause) : Bool :=
  match c.distinct with
  | some (.on _) => true
  | _ => false

/-- The same of any node. -/
def Node.UnmistakableAlone : Node → Prop
  | .expr e => e.Unmistakable
  | .select c => c.isOn = true → ∀ i ∈ c.items.head?, i.value.IsSettled
  | .frame f => (f.stop.isNone = true → ∀ e ∈ f.start.offset?, e.IsSettled) ∧
      (∀ e ∈ f.start.offset?, e.Avoids Bound.openings) ∧
      ∀ stop ∈ f.stop, ∀ e ∈ stop.offset?, e.Avoids Bound.openings
  | .fetch f => ∀ e ∈ f.count, e.IsSettled ∧ e.Avoids ["row", "rows"]
  | _ => True

/-- The same, and no sign is read together with a number after it. -/
structure Node.Unmistakable (n : Node) : Prop where
  alone : n.UnmistakableAlone
  signs : ∀ e ∈ n.awaited, e.leadsLooseSign = false

instance (name : String) : Decidable (IsBareName name) :=
  inferInstanceAs (Decidable (IsWord name ∧ isWordText name.toList = true))

instance : DecidablePred Expr.Unmistakable := fun e => by
  cases e <;> unfold Expr.Unmistakable <;> infer_instance

instance : DecidablePred Node.UnmistakableAlone := fun n => by
  cases n <;> unfold Node.UnmistakableAlone <;> infer_instance

instance (n : Node) : Decidable n.Unmistakable :=
  decidable_of_iff (n.UnmistakableAlone ∧ ∀ e ∈ n.awaited, e.leadsLooseSign = false)
    ⟨fun h => ⟨h.1, h.2⟩, fun h => ⟨h.alone, h.signs⟩⟩

theorem Literal.Parsed.fits {value : Literal} (h : value.Parsed Token.Scanned) :
    value.Fits ∧ value.Legible := by
  cases h with
  | null | boolean => exact ⟨trivial, trivial⟩
  | token known kind => exact known.literal kind
  | specified known kind same =>
    obtain ⟨specifier, _, text, split, closed⟩ := known.specified kind
    cases same.symm.trans split
    exact ⟨Literal.fits_string closed, closed⟩

theorem SpecifiedParsed.fits {specifier : String} {value : Literal}
    (h : SpecifiedParsed Token.Scanned specifier value)
    (clear : specifier ∈ tightSpecifiers ∨ IsBareName specifier) :
    FitsSpecifier specifier value ∧ (∃ text, value = .string text ∧ isClosedBody text.toList = true) ∧
      (specifier ∈ tightSpecifiers ∨ IsWordText specifier.toList) := by
  have single := clear.imp_right fun bare => isWordText_iff.1 bare.2
  cases h with
  | token known kind same =>
    obtain ⟨own, tight, text, split, closed⟩ := known.specified kind
    cases same.symm.trans split
    exact ⟨fitsSpecifier_of_tight tight closed, ⟨text, rfl, closed⟩, .inl tight⟩
  | @typed t _ lower known kind quoted =>
    obtain ⟨fits, closed⟩ := known.literal kind
    have string : Literal.ofText t.text = .string (unquote t.text.toList) := if_pos quoted
    rw [string] at fits closed ⊢
    refine ⟨?_, ⟨_, rfl, closed⟩, single⟩
    by_cases tight : specifier ∈ tightSpecifiers
    · exact fitsSpecifier_of_tight tight closed
    · rw [FitsSpecifier, if_neg tight]
      exact ⟨(clear.resolve_left tight).1, lower, ⟨_, rfl⟩, fits⟩

theorem JoinParsed.known {kind : String} (h : JoinParsed Token.Scanned kind) : kind ∈ joinKinds := by
  have joins : ∀ letters ∈ Keyword.reservedLetters ++ Keyword.phraseLetters,
      "join".toList <:+ letters → String.ofList letters ∈ joinKinds := by
    decide +kernel
  rcases h with rfl | ⟨t, known, command, rfl, ends⟩
  · decide
  · obtain ⟨letters, mem, same⟩ := Keyword.isComplete_letters (known.command command)
    have spelled : t.text.toList = letters := by rw [same, String.toList_ofList]
    rw [spelled] at ends
    exact same ▸ joins letters mem ends

namespace Expr

theorem eq_of_isWildcard {e : Expr} (h : e.isWildcard = true) : e = .column .wildcard := by
  unfold isWildcard at h
  split at h
  · rw [eq_of_beq h]
  · cases h

theorem Argues.fits {name : String} {e : Expr} (h : e.Argues name)
    (avoids : e.isWildcard = false → ∀ v ∈ e.listed.head?, v.Avoids [wildcardName])
    (bare : ∀ field value, e = .binary (.raw field) "from" value → IsBareName field) :
    e.IsArgument name := by
  cases h with
  | wildcard => exact .inl rfl
  | query q => exact .inr (.inl ⟨q, rfl⟩)
  | distinct listing => exact .inr (.inr (.inl ⟨_, rfl, listing⟩))
  | extract call lower isValue =>
    exact .inr (.inr (.inr (.inl ⟨_, _, rfl, call, (bare _ _ rfl).1, lower, isValue⟩)))
  | listing listing =>
    cases wildcard : e.isWildcard with
    | true => exact .inl (eq_of_isWildcard wildcard)
    | false => exact .inr (.inr (.inr (.inr ⟨listing, avoids wildcard⟩)))

theorem IsRightSide.fits {operator : String} {power : Nat} {right : Expr}
    (h : right.IsRightSide operator power)
    (clear : Power.isMembership operator → right.isTuple = false → right.leadsOpen = false) :
    right.IsRightOf operator power := by
  rcases h with listed | ⟨isValue, spine⟩
  · exact .inl listed
  by_cases tuple : right.isTuple = true
  · by_cases member : Power.isMembership operator = true
    · exact .inl ⟨member, tuple⟩
    · exact .inr ⟨isValue, spine, fun same => absurd same member⟩
  · refine .inr ⟨isValue, spine, fun member => ?_⟩
    have open_ := clear member (by simpa using tuple)
    unfold leadsOpen at open_
    refine ⟨fun inner same => ?_, fun same => ?_⟩
    · simp [same] at open_
    · cases first : right.first <;> simp_all [isTuple]

theorem fits {e : Expr} (parsed : e.Parsed Token.Scanned) (clear : e.Unmistakable)
    (extracted : ∀ call, e = .function call → ∀ field value,
      call.argument = some (.binary (.raw field) "from" value) → IsBareName field)
    (notRaw : ∀ text, e ≠ .raw text) : e.Fits := by
  cases e with
  | literal value => exact parsed.fits.1
  | parameter name => trivial
  | raw text => exact absurd rfl (notRaw text)
  | function call =>
    refine ⟨clear.1, parsed.1, parsed.2.1, fun e mem => ?_⟩
    refine (parsed.2.2 e mem).fits (clear.2 e mem) fun field value same => ?_
    exact extracted call rfl field value (same ▸ mem)
  | binary left operator right =>
    refine parsed.imp And.left ?_
    rintro ⟨power, found, plain, isValue, edge, side⟩
    exact ⟨power, found, plain, isValue, edge, side.fits clear.2.2.2⟩
  | type ref =>
    refine ⟨?_, parsed.2⟩
    by_cases long : ref.name ∈ longTypes
    · exact .inl long
    · exact .inr ⟨(clear.resolve_left long).1, parsed.1.resolve_left long⟩
  | specifiedString specifier value => exact (parsed.fits clear).1
  | _ => exact parsed

theorem legible {d : Dialect} {e : Expr} (parsed : e.Parsed Token.Scanned) (clear : e.Unmistakable)
    (apart : ∀ content, e = .array content → d.closer = ']' →
      Mark.endsQuoted d (content.marks d) = false) : e.Legible d := by
  cases e with
  | literal value => exact parsed.fits.2
  | parameter name =>
    obtain ⟨t, known, kind, rfl⟩ := parsed
    exact known.parameter kind
  | unary operator operand => exact clear
  | binary left operator right =>
    refine ⟨?_, clear.2.1, ?_⟩
    · rintro field rfl
      exact isWordText_iff.1 (clear.1 field rfl).2
    · rintro ⟨power, symbol⟩
      exact clear.2.2.1 (List.mem_map_of_mem symbol)
  | array content => exact ⟨clear, apart content rfl⟩
  | cast input ref => exact fun primary none => clear primary (by rw [none]; rfl)
  | type ref => exact clear.imp_right fun bare => isWordText_iff.1 bare.2
  | specifiedString specifier value => exact (parsed.fits clear).2
  | _ => trivial

end Expr

namespace Node

variable {n : Node}

theorem fits (parsed : n.Parsed Token.Scanned) (clear : n.UnmistakableAlone) (erased : n.erase = n)
    (extracted : ∀ call, n = .expr (.function call) → ∀ field value,
      call.argument = some (.binary (.raw field) "from" value) → IsBareName field)
    (notRaw : ∀ text, n ≠ .expr (.raw text)) : n.Fits := by
  cases n with
  | expr e =>
    exact Expr.fits parsed clear (fun call same => extracted call (congrArg Node.expr same))
      fun text same => notRaw text (congrArg Node.expr same)
  | selectItem i =>
    have same : i.erase = i := Node.selectItem.inj erased
    rw [SelectItem.erase_eq] at same
    exact ⟨parsed.1, parsed.2, congrArg SelectItem.aliasName same⟩
  | source s =>
    have same : s.erase = s := Node.source.inj erased
    rw [Source.erase_eq] at same
    exact congrArg Source.sourceAlias same
  | join j => exact ⟨parsed.1.known, parsed.2⟩
  | frame f =>
    exact ⟨fun e mem => ⟨parsed.1 e mem, clear.2.1 e mem⟩,
      fun stop mem e offset => ⟨parsed.2 stop mem e offset, clear.2.2 stop mem e offset⟩⟩
  | fetch f => exact ⟨fun e mem => ⟨parsed.1 e mem, (clear e mem).2⟩, parsed.2⟩
  | distinct d => cases d <;> exact parsed
  | overClause o => cases o <;> exact parsed
  | _ => exact parsed

theorem legible_alone {d : Dialect} (parsed : n.Parsed Token.Scanned) (clear : n.UnmistakableAlone)
    (apart : ∀ content, n = .expr (.array content) → d.closer = ']' →
      Mark.endsQuoted d (content.marks d) = false) : n.LegibleAlone d := by
  cases n with
  | expr e =>
    exact Expr.legible parsed clear fun content same => apart content (congrArg Node.expr same)
  | select c =>
    intro values rows
    exact clear (by rw [SelectClause.isOn, rows])
  | frame f =>
    intro sole
    exact clear.1 (by rw [sole]; rfl)
  | fetch f => exact fun e mem => (clear e mem).1
  | _ => trivial

/-- A name is written as it is. -/
theorem plain_of_bareNames {text : String} (clear : n.UnmistakableAlone)
    (named : text ∈ n.bareNames) : IsPlain text := by
  have specifiers : ∀ specifier ∈ tightSpecifiers, isPlainText specifier = true := by decide
  have long : ∀ name ∈ longTypes, isPlainText name = true := by decide
  unfold bareNames at named
  split at named
  case h_1 => exact List.mem_singleton.1 named ▸ clear.1
  case h_2 =>
    obtain rfl := List.mem_singleton.1 named
    exact clear.elim (fun mem => isPlain_of (long _ mem)) fun bare => bare.1.1
  case h_3 =>
    obtain rfl := List.mem_singleton.1 named
    exact clear.elim (fun mem => isPlain_of (specifiers _ mem)) fun bare => bare.1.1
  case h_4 =>
    obtain rfl := List.mem_singleton.1 named
    exact (clear.1 _ rfl).1.1
  case h_5 => cases named

/-- The texts in the children of a node, and the field of an extraction, are written as they are. -/
theorem plain_of_child {role text : String} (parsed : n.Parsed Token.Scanned)
    (clear : n.UnmistakableAlone) (placed : Child.Placed n (role, .expr (.raw text))) : IsPlain text := by
  cases placed with
  | text own =>
    rcases text_sort parsed own with plain | kind | named
    · exact plain
    · exact join_plain kind.known
    · exact plain_of_bareNames clear named
  | field field value => exact plain_of_bareNames clear (List.mem_singleton.2 rfl)

/-- Nothing is left to erase below a node without redundant aliases. -/
theorem erase_of_mem_walk (erased : n.erase = n) {m : Node} (mem : m ∈ n.walk) : m.erase = m := by
  obtain ⟨k, _, rfl⟩ := mem_walk_erase (erased.symm ▸ mem)
  exact k.erase_erase

theorem wellFormed_of_parsed {q : Query} (parsed : (Node.query q).AllParsed Token.Scanned)
    (clear : ∀ m ∈ (Node.query q).walk, m.Unmistakable) (erased : (Node.query q).erase = .query q) :
    (Node.query q).WellFormed := by
  have shaped := wellShaped_of_parsed parsed trivial
  intro m mem
  by_cases raw : ∃ text, m = .expr (.raw text)
  · obtain ⟨text, rfl⟩ := raw
    obtain ⟨k, inside, role, child⟩ := ((mem_walk.1 mem).resolve_left nofun).parent
    exact plain_of_child (parsed k inside) (clear k inside).alone
      (((shaped k inside).2 _ child).resolve_left id)
  · refine fits (parsed m mem) (clear m mem).alone (erase_of_mem_walk erased mem) ?_
      fun text same => raw ⟨text, same⟩
    rintro call rfl field value same
    have argument : ("argument", Node.expr (.binary (.raw field) "from" value)) ∈
        (Node.expr (.function call)).children :=
      List.mem_append_left _ (List.mem_append_right _ (Child.mem_maybe same))
    have below := below_of_mem_walk mem (.child _ argument)
    exact (clear _ (mem_walk.2 (.inr below))).alone.1 field rfl

theorem isLegible_of_parsed {q : Query} {d : Dialect} (parsed : (Node.query q).AllParsed Token.Scanned)
    (clear : ∀ m ∈ (Node.query q).walk, m.Unmistakable)
    (apart : d.closer = ']' → ∀ content, .expr (.array content) ∈ (Node.query q).walk →
      Mark.endsQuoted d (content.marks d) = false) :
    (Node.query q).IsLegible d := by
  intro m mem
  refine ⟨legible_alone (parsed m mem) (clear m mem).alone ?_, (clear m mem).signs⟩
  rintro content rfl bracket
  exact apart bracket content mem

end Node

/-- A parsed query whose casts of tests are written with parentheses, which take two levels each. -/
theorem Query.levels_lt_of_parse {text : String} {limit : Nat} {q : Query}
    (read : Query.parse text limit = .ok q) : (Node.query q).levels < limit + 2 * (Node.query q).lates := by
  obtain ⟨lexemes, scanned, accepted⟩ := Query.statement_of_parse read
  obtain ⟨rest, ran⟩ := Session.statement_eq_ok.1 accepted
  obtain ⟨_, needs⟩ := Grammar.statementAt_needs Token.Scanned limit _ q rest (scanned_of_scan scanned)
    trivial ran
  have least : (Node.query q).need + 1 ≤ limit := needs
  have nested := (Node.query q).levels_le
  omega

/-- Without its redundant aliases a parsed query is well-formed, if no part of it is mistaken. -/
theorem Query.wellFormed_erase {text : String} {limit : Nat} {q : Query}
    (read : Query.parse text limit = .ok q)
    (clear : ∀ m ∈ (Node.query q.erase).walk, m.Unmistakable) :
    (Node.query q.erase).AllParsed Token.Scanned ∧ (Node.query q.erase).WellFormed := by
  obtain ⟨lexemes, scanned, accepted⟩ := Query.statement_of_parse read
  obtain ⟨rest, ran⟩ := Session.statement_eq_ok.1 accepted
  obtain ⟨_, parsed⟩ := Grammar.statementAt_sound Token.Scanned limit _ q rest (scanned_of_scan scanned)
    trivial ran
  have whole : (Node.query q.erase).AllParsed Token.Scanned := parsed.erase
  exact ⟨whole, Node.wellFormed_of_parsed whole clear (Node.query q).erase_erase⟩

section

variable {text out : String} {limit levels more : Nat} {q : Query}

/-- What is written of it is scanned into its tokens. -/
theorem Query.scan_erase {d : Dialect} [d.Readable] (read : Query.parse text limit = .ok q)
    (clear : ∀ m ∈ (Node.query q.erase).walk, m.Unmistakable)
    (apart : d.closer = ']' → ∀ content, .expr (.array content) ∈ (Node.query q.erase).walk →
      Mark.endsQuoted d (content.marks d) = false) :
    ∃ lexemes, (scan (String.ofList (Mark.spellAll d (q.erase.marks d)))).2 = .ok lexemes ∧
      Lexeme.tokens lexemes = Token.numbered d 0 (q.erase.tokens d) := by
  obtain ⟨whole, fits⟩ := wellFormed_erase read clear
  exact (scans fits (Node.isLegible_of_parsed whole clear apart)).lexemes

/-- The output with standard spelling is parsed as the query without redundant aliases. -/
theorem Query.parse_erase (read : Query.parse text limit = .ok q)
    (written : (Node.query q).write .standard levels = .ok out)
    (clear : ∀ m ∈ (Node.query q.erase).walk, m.Unmistakable)
    (enough : limit + 2 * (Node.query q).lates ≤ more ∨ (Node.query q).levels < more) :
    Query.parse out more = .ok q.erase := by
  obtain ⟨lexemes, scanned, tokens⟩ := scan_erase read clear (d := .standard)
    fun bracket => absurd bracket (by decide)
  rw [Token.numbered_named rfl] at tokens
  have rewritten := ((Node.query q).write_erase .standard levels).1.trans written
  rw [← (Node.write_ok_iff.1 rewritten).2]
  refine parse_of_tokens scanned ?_
  rw [tokens]
  have nested := levels_lt_of_parse read
  have erased : (Node.query q.erase).levels ≤ (Node.query q).levels := (Node.query q).levels_erase_le
  exact Grammar.statement_reads (wellFormed_erase read clear).2 (by omega)

/-- The output of a parsed query with standard spelling is parsed as the query without redundant
aliases, and is the output of that query as well, unless some piece of it can be taken for another one.
Casts of tests for rows or for membership are written with parentheses, which take two levels. -/
theorem Query.parse_again (read : Query.parse text limit = .ok q)
    (written : (Node.query q).write .standard levels = .ok out)
    (clear : ∀ m ∈ (Node.query q.erase).walk, m.Unmistakable)
    (enough : limit + 2 * (Node.query q).lates ≤ more ∨ (Node.query q).levels < more) :
    Query.parse out more = .ok q.erase ∧ (Node.query q.erase).write .standard levels = .ok out :=
  ⟨parse_erase read written clear enough, ((Node.query q).write_erase .standard levels).1.trans written⟩

end

theorem Query.parse_again_aliases : ∃ q out,
    Query.parse
      "select t.a as a, - b + 1, extract(year from d), array[c, 1] from t as t where a in (1, 2)" 20 = .ok q ∧
    (Node.query q).write .standard 20 = .ok out ∧
    (∀ m ∈ (Node.query q.erase).walk, m.Unmistakable) ∧ 20 + 2 * (Node.query q).lates ≤ 20 ∧
    Query.parse out 20 = .ok q.erase ∧ (Node.query q.erase).write .standard 20 = .ok out := by
  obtain ⟨q, read, facts⟩ := Except.toOption_map_eq_some
    (b := ((Except.ok "select t.a, -b + 1, extract(year from d), array[c, 1] from t where a in (1, 2)" : Written),
      true, 0))
    (r := Query.parse
      "select t.a as a, - b + 1, extract(year from d), array[c, 1] from t as t where a in (1, 2)" 20)
    (f := fun q => ((Node.query q).write .standard 20,
      decide (∀ m ∈ (Node.query q.erase).walk, m.Unmistakable), (Node.query q).lates))
    (by rw [Query.parse_eq_run]; decide +kernel)
  obtain ⟨written, clear, lates⟩ := by simpa only [Prod.mk.injEq, decide_eq_true_eq] using facts
  have enough : 20 + 2 * (Node.query q).lates ≤ 20 := by omega
  exact ⟨q, _, read, written, clear, enough, Query.parse_again read written clear (.inl enough)⟩

end SqlQuery
