import SqlQuery.Proofs.Scanning.Symbol

/-!
Marks are scanned into their tokens where they stand. What may stand somewhere depends on the token
before it: a star is all columns only where that token allows it.
-/

namespace SqlQuery

/-- The last of the tokens, or the one before them if there are none. -/
def lastOf (previous : Option Token) (ts : List Token) : Option Token := ts.getLast?.or previous

@[simp] theorem lastOf_nil (previous : Option Token) : lastOf previous [] = previous := rfl

@[simp] theorem lastOf_singleton (previous : Option Token) (t : Token) :
    lastOf previous [t] = some t := rfl

theorem lastOf_append (previous : Option Token) (ts us : List Token) :
    lastOf previous (ts ++ us) = lastOf (lastOf previous ts) us := by
  simp [lastOf, List.getLast?_append, Option.or_assoc]

namespace Mark

/-- The token before what comes after these marks. -/
def lastRead (previous : Option Token) (ms : List Mark) : Option Token := lastOf previous (read ms)

theorem lastRead_append (previous : Option Token) (a b : List Mark) :
    lastRead previous (a ++ b) = lastRead (lastRead previous a) b := by
  rw [lastRead, read_append, lastOf_append]
  rfl

theorem lastRead_cons (previous : Option Token) (m : Mark) (ms : List Mark) :
    lastRead previous (m :: ms) = lastRead (lastRead previous [m]) ms :=
  lastRead_append previous [m] ms

theorem lastRead_of_tokens {m : Mark} {t : Token} (tokens : m.tokens = [t])
    (previous : Option Token) : lastRead previous [m] = some t := by
  simp [lastRead, tokens]

@[simp] theorem lastRead_nil (previous : Option Token) : lastRead previous [] = previous := rfl

@[simp] theorem lastRead_blank (previous : Option Token) (ms : List Mark) :
    lastRead previous (.blank :: ms) = lastRead previous ms := rfl

end Mark

open Mark

/-- Between this token and this text the marks are scanned into their tokens. -/
def Stands (d : Dialect) (previous : Option Token) (ms : List Mark) (cs : List Char) : Prop :=
  ∀ ts, Scans d (lastRead previous ms) cs ts → Scans d previous (spellAll d ms ++ cs) (read ms ++ ts)

theorem spellAll_cons (d : Dialect) (m : Mark) (ms : List Mark) :
    spellAll d (m :: ms) = m.spell d ++ spellAll d ms := rfl

theorem spellAll_append (d : Dialect) (a b : List Mark) :
    spellAll d (a ++ b) = spellAll d a ++ spellAll d b := List.flatMap_append

theorem spellAll_singleton (d : Dialect) (m : Mark) : spellAll d [m] = m.spell d := by
  simp [spellAll]

namespace Stands

variable {d : Dialect} {previous : Option Token} {a b : List Mark} {cs : List Char}

theorem nil : Stands d previous [] cs := fun _ later => later

theorem append (first : Stands d previous a (spellAll d b ++ cs))
    (next : Stands d (lastRead previous a) b cs) : Stands d previous (a ++ b) cs := by
  intro ts later
  rw [lastRead_append] at later
  have scanned := first _ (next ts later)
  rwa [spellAll_append, read_append, List.append_assoc, List.append_assoc]

/-- A mark that is scanned into one token. -/
theorem one {m : Mark} {t : Token} (tokens : m.tokens = [t])
    (scanned : ∀ ts, Scans d (some t) cs ts → Scans d previous (m.spell d ++ cs) (t :: ts)) :
    Stands d previous [m] cs := by
  intro ts later
  rw [lastRead_of_tokens tokens] at later
  rw [spellAll_singleton, read_cons, tokens]
  exact scanned ts later

theorem blank : Stands d previous [.blank] cs := fun _ later => Scans.blank (by decide) later

theorem then_blank (first : Stands d previous a (' ' :: (spellAll d b ++ cs)))
    (next : Stands d (lastRead previous a) b cs) : Stands d previous (a ++ .blank :: b) cs :=
  first.append (blank.append (a := [.blank]) next)

/-- A keyword that nothing after it goes on with. -/
theorem keyword {text : String} (complete : Keyword.isComplete text = true) (boundary : Boundary cs)
    (alone : Lexeme.Name.longerKeyword? text cs = none) : Stands d previous [.plain text] cs :=
  one (tokens_keyword complete) fun _ later => .keyword complete boundary alone later

/-- A word that is no keyword. -/
theorem word {text : String} (isWord : IsWordText text.toList)
    (tokens : plainTokens text = [wordToken text]) (plain : Keyword.isComplete (Text.lower text) = false)
    (boundary : Boundary cs) (alone : Lexeme.Name.longerKeyword? (Text.lower text) cs = none) :
    Stands d previous [.plain text] cs :=
  one tokens fun _ later => .next (.bare isWord boundary plain alone) nofun later

theorem openParen : Stands d previous [.plain "("] cs :=
  one tokens_open fun _ later => .openParen later

theorem closeParen : Stands d previous [.plain ")"] cs :=
  one tokens_close fun _ later => .closeParen later

theorem parens {ms : List Mark} (inner : Stands d (some openToken) ms (')' :: cs)) :
    Stands d previous (inParens ms) cs := by
  refine .append (.append (a := [.plain "("]) openParen ?_) closeParen
  rwa [lastRead_of_tokens tokens_open]

theorem comma : Stands d previous [.plain ","] cs :=
  one tokens_comma fun _ later => .comma later

theorem dot (next : cs.head?.any Char.isDigit = false) : Stands d previous [.plain "."] cs :=
  one (by decide) fun _ later => .dot next later

theorem colons : Stands d previous [.plain "::"] cs :=
  one (by decide) fun _ later => .colons later

theorem openBracket : Stands d (some (keywordToken "array")) [.plain "["] cs :=
  one (by decide) fun _ later => .openBracket later

theorem closeBracket : Stands d previous [.plain "]"] cs :=
  one (by decide) fun _ later => .closeBracket later

theorem operator {text : String} {power : Nat} (mem : (text, power) ∈ Power.symbols)
    (closes : previous.any Token.closes = true) : Stands d previous [.plain text] (' ' :: cs) := by
  exact one (Power.symbols_plain _ mem).2 fun _ later => .operator mem closes later

theorem sign {text : String} (mem : text ∈ Power.signs)
    (number : text ∈ ["-", "+"] → previous.all Token.expectsOperand = true →
      Lexeme.Literal.startsNumber (cs.dropWhile Text.isBlank) = false)
    (next : ∀ d ∈ cs.head?, d ∉ Scans.signTails) : Stands d previous [.plain text] cs := by
  have tokens : ∀ text ∈ Power.signs, plainTokens text = [⟨.operator, text⟩] := by decide
  exact one (tokens _ mem) fun _ later => .sign mem number next later

/-- A star is all columns where the token before it allows that. -/
theorem wildcard (allowed : previous.all Token.precedesWildcard = true) :
    Stands d previous [.name wildcardName] cs := by
  have spelled : (Mark.name wildcardName).spell d = ['*'] := by
    simp [Mark.spell, Dialect.spellName, wildcardName]
  refine one rfl fun ts later => ?_
  rw [spelled]
  exact .wildcard allowed later

variable [d.Readable]

theorem name {text : String} (named : text ≠ wildcardName) (clear : Clear previous)
    (ending : NameEnd d text cs) : Stands d previous [.name text] cs :=
  one rfl fun _ later => .next (.name named clear ending) nofun later

theorem call {text : String} (clear : Clear previous) : Stands d previous [.call text] ('(' :: cs) :=
  one rfl fun _ later => .next (.call clear) nofun later

theorem parameter {text : String} (nonempty : text.toList ≠ [])
    (chars : ∀ c ∈ text.toList, Text.isWordChar c = true) (boundary : Boundary cs) :
    Stands d previous [.parameter text] cs :=
  one rfl fun _ later => .parameter nonempty chars boundary later

end Stands

end SqlQuery
