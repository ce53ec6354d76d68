import SqlQuery.Grammar.Expression
import SqlQuery.Proofs.Rule.Run
import SqlQuery.Proofs.Written.Known

/-!
The tokens that a value is written as: the one it begins with, and those that may follow it without
being taken for a part of it.
-/

namespace SqlQuery

namespace Token

/-- Keywords that begin a value. -/
def valueKeywords : List String :=
  ["null", "true", "false", "case", "cast", "array", "exists", "not"]

def opensValue (t : Token) : Bool :=
  match t.kind with
  | .literal | .escapedString | .parameter | .openParen | .identifier => true
  | .operator => Power.signs.contains t.text
  | .command => valueKeywords.contains t.text
  | _ => false

def queryKeywords : List String := ["select", "with", "values"]

def opensQuery (t : Token) : Bool := t.kind == .command && queryKeywords.contains t.text

/-- Words that go on with the name of a type. -/
def typeWords : List String := ["precision", "varying", "without"]

/-- After a value it could be read as a part of that value. -/
def extendsValue (t : Token) : Bool :=
  match t.kind with
  | .openParen | .dot => true
  | .literal => isQuoted t.text
  | .command => t.text == "over" || t.text == "with" || typeWords.any fun word => t.isWord word
  | .identifier => typeWords.any fun word => t.isWord word
  | _ => false

variable {t : Token}

theorem isCommand_iff {keyword : String} :
    t.isCommand keyword = true ↔ t.kind = .command ∧ t.text = keyword := by
  simp [isCommand]

theorem isKind_iff {kind : Kind} : isKind kind t = true ↔ t.kind = kind := by
  simp [isKind]

theorem not_command_of_opensValue (h : t.opensValue = true) {keyword : String}
    (other : keyword ∉ valueKeywords) : t.isCommand keyword = false := by
  cases found : t.isCommand keyword with
  | false => rfl
  | true =>
    obtain ⟨kind, rfl⟩ := isCommand_iff.1 found
    simp only [opensValue, kind, List.contains_eq_mem, decide_eq_true_eq] at h
    exact absurd h other

theorem not_kind_of_opensValue (h : t.opensValue = true) {kind : Kind}
    (other : kind = .closeParen ∨ kind = .closeBracket ∨ kind = .comma) :
    isKind kind t = false := by
  cases found : isKind kind t with
  | false => rfl
  | true =>
    have same := isKind_iff.1 found
    rcases other with rfl | rfl | rfl <;> simp [opensValue, same] at h

theorem not_query_of_opensValue (h : t.opensValue = true) : t.opensQuery = false := by
  cases kind : t.kind with
  | command =>
    simp only [opensValue, kind, List.contains_eq_mem, decide_eq_true_eq] at h
    simp only [opensQuery, kind, beq_self_eq_true, Bool.true_and, List.contains_eq_mem,
      decide_eq_false_iff_not]
    intro query
    have apart : ∀ word ∈ valueKeywords, word ∉ queryKeywords := by decide
    exact apart _ h query
  | _ => simp [opensQuery, kind]

end Token

def semicolon : Token := ⟨.operator, ";"⟩

/-- The tokens in which a value is written. -/
def Expr.tokens (d : Dialect) (e : Expr) : List Token := Mark.read (e.marks d)

def Query.tokens (d : Dialect) (q : Query) : List Token := Mark.read (q.marks d)

/-- The first tokens of a value. After a parenthesis that holds no values a query begins. -/
structure Expr.BeginsWith (e : Expr) (t : Token) (ts : List Token) : Prop where
  opens : t.opensValue = true
  name : t.kind = .identifier → e.leadName? = some t.text
  paren : t.kind = .openParen → (∃ inner, e.first = .paren inner) ∨ e.first.isTuple = true ∨
    ts.head?.any Token.opensQuery = true
  second : ∀ u ∈ ts.head?, u.isCommand "from" = false

def Expr.Begins (d : Dialect) (e : Expr) : Prop := ∃ t ts, e.tokens d = t :: ts ∧ e.BeginsWith t ts

def Query.Begins (d : Dialect) (q : Query) : Prop :=
  ∃ t ts, q.tokens d = t :: ts ∧ t.opensQuery = true

/-- A value that avoids a word does not begin with it. -/
theorem Expr.BeginsWith.not_word {e : Expr} {t : Token} {ts : List Token} (h : e.BeginsWith t ts)
    {words : List String} (avoids : e.Avoids words) {word : String} (mem : word ∈ words)
    (plain : ∀ keyword ∈ Token.valueKeywords, Text.sameIgnoringCase keyword word = false) :
    t.isWord word = false := by
  cases kind : t.kind with
  | identifier =>
    have named := avoids t.text (h.name kind) word mem
    simp [Token.isWord, kind, named]
  | command =>
    have opens := h.opens
    simp only [Token.opensValue, kind, List.contains_eq_mem, decide_eq_true_eq] at opens
    simp [Token.isWord, kind, plain _ opens]
  | _ => simp [Token.isWord, kind]

/-- Nothing follows that extends a value, nor an operator of this power or more. -/
def Closed (bound : Nat) (rest : List Token) : Prop :=
  ∀ t ∈ rest.head?, t.extendsValue = false ∧ ∀ power, Power.binary? t = some power → power < bound

theorem Closed.mono {a b : Nat} {rest : List Token} (h : Closed a rest) (le : a ≤ b) :
    Closed b rest := by
  intro t head
  refine ⟨(h t head).1, fun power found => ?_⟩
  exact Nat.lt_of_lt_of_le ((h t head).2 power found) le

/-- Tokens that are no operators follow every value. -/
theorem Closed.of_end {bound : Nat} {t : Token} {rest : List Token}
    (plain : t.extendsValue = false) (none : Power.binary? t = none) : Closed bound (t :: rest) := by
  intro u head
  obtain rfl : t = u := by simpa using head
  exact ⟨plain, by simp [none]⟩

/-- These tokens begin with one of a few, if there are any. -/
def HeadIn (next rest : List Token) : Prop := ∀ t ∈ rest.head?, t ∈ next

namespace HeadIn

variable {next more rest : List Token} {t : Token}

theorem cons (mem : t ∈ next) (rest : List Token) : HeadIn next (t :: rest) := by
  intro u head
  obtain rfl : t = u := by simpa using head
  exact mem

theorem mono (h : HeadIn next rest) (subset : ∀ t ∈ next, t ∈ more) : HeadIn more rest :=
  fun t head => subset t (h t head)

theorem lacks (h : HeadIn next rest) {p : Token → Bool} (none : ∀ t ∈ next, p t = false) :
    Rule.Lacks p rest :=
  fun t head => none t (h t head)

theorem closed (h : HeadIn next rest) (bound : Nat)
    (plain : ∀ t ∈ next, t.extendsValue = false ∧ Power.binary? t = none) : Closed bound rest := by
  intro t head
  obtain ⟨same, none⟩ := plain t (h t head)
  exact ⟨same, by simp [none]⟩

end HeadIn

theorem Closed.nil (bound : Nat) : Closed bound [] := by
  intro t head
  cases head

namespace Power

/-- The token of an operator between operands. -/
def token (operator : String) : Token :=
  ⟨if Keyword.isComplete operator then .command else .operator, operator⟩

/-- Every operator is written as its token, from which its power is read. -/
theorem infix?_token : ∀ entry ∈ keywords ++ symbols, (rawMark entry.1).tokens = [token entry.1] ∧
    binary? (token entry.1) = some entry.2 ∧ (token entry.1).extendsValue = false := by
  have words : ∀ entry ∈ keywords, keywords.lookup entry.1 = some entry.2 ∧
      (keywordToken entry.1).extendsValue = false := by
    decide +kernel
  have marks : ∀ entry ∈ symbols, symbols.lookup entry.1 = some entry.2 := by decide +kernel
  intro entry mem
  rcases List.mem_append.1 mem with keyword | symbol
  · have complete := keywords_complete entry keyword
    obtain ⟨power, plain⟩ := words entry keyword
    rw [token, if_pos complete]
    exact ⟨Keyword.tokens_rawMark complete, power, plain⟩
  · obtain ⟨trim, tokens⟩ := symbols_plain entry symbol
    rw [token, symbols_incomplete entry symbol, rawMark, trim]
    exact ⟨tokens, marks entry symbol, rfl⟩

theorem tokens_infix {operator : String} {power : Nat} (h : infix? operator = some power) :
    (rawMark operator).tokens = [token operator] :=
  (infix?_token _ (infix?_mem h)).1

theorem binary?_token {operator : String} {power : Nat} (h : infix? operator = some power) :
    binary? (token operator) = some power :=
  (infix?_token _ (infix?_mem h)).2.1

theorem extends_token {operator : String} {power : Nat} (h : infix? operator = some power) :
    (token operator).extendsValue = false :=
  (infix?_token _ (infix?_mem h)).2.2

end Power

end SqlQuery
