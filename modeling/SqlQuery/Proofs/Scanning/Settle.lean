import SqlQuery.Proofs.Scanning.Phrase

/-!
Marks that stand in front of everything that may follow a part of a query, and how larger parts are
put together from them.
-/

namespace SqlQuery

open Mark

/-- What may follow the text of a part. -/
def endChars : List Char := [' ', ',', ')', ']', ':']

/-- What follows cannot go on with the end of a part, nor with the quotes of a name there. -/
def Ending (d : Dialect) (ms : List Mark) (cs : List Char) : Prop :=
  ∀ c ∈ cs.head?, c ∈ endChars ∧ (Mark.endsQuoted d ms = true → c ≠ d.closer)

theorem endChars_boundary : ∀ c ∈ endChars, c ∈ boundaryChars :=
  List.all_iff_forall_prop.1 (by decide)

namespace Ending

variable {d : Dialect} {ms a b : List Mark} {cs : List Char} {c : Char}

theorem nil : Ending d ms [] := by
  intro c head
  cases head

theorem of_unquoted (mem : c ∈ endChars) (unquoted : Mark.endsQuoted d ms = true → c ≠ d.closer)
    (cs : List Char) : Ending d ms (c :: cs) := by
  intro e head
  obtain rfl : c = e := by simpa using head
  exact ⟨mem, unquoted⟩

theorem boundary (h : Ending d ms cs) : Boundary cs :=
  fun c head => endChars_boundary c (h c head).1

theorem ne (h : Ending d ms cs) (other : c ∉ endChars) : cs.head? ≠ some c :=
  fun head => other (h c head).1

theorem name {text : String} (h : Ending d [.name text] cs) : NameEnd d text cs :=
  ⟨h.boundary, fun closes head => (h _ head).2 closes rfl⟩

theorem number (h : Ending d ms cs) : NumberEnd cs := ⟨h.boundary, h.ne (by decide)⟩

/-- What follows a part follows the end of it. -/
theorem of_append (h : Ending d (a ++ b) cs) : Ending d b cs := by
  refine fun c head => (h c head).imp id fun apart quoted => apart ?_
  unfold Mark.endsQuoted at quoted ⊢
  split at quoted
  case h_1 last => simpa [List.getLast?_append, last] using quoted
  case h_2 => cases quoted

theorem of_cons {m : Mark} (h : Ending d (m :: ms) cs) : Ending d ms cs := of_append (a := [m]) h

theorem of_qualify {m : Mark} {namespaces : List String} (h : Ending d (qualify namespaces m) cs) :
    Ending d [m] cs := by
  induction namespaces with
  | nil => simpa [qualify, List.intercalate] using h
  | cons name namespaces ih =>
    rw [qualify_cons] at h
    exact ih h.of_cons.of_cons

theorem cons [d.Readable] (mem : c ∈ endChars) (other : c ≠ ']') (cs : List Char) :
    Ending d ms (c :: cs) := by
  have marks : ∀ marks ∈ Dialect.quoteMarks, marks.2 ∉ endChars ∨ marks.2 = ']' := by decide
  refine of_unquoted mem (fun _ same => ?_) cs
  subst same
  exact (marks _ Dialect.Readable.quotes).elim (fun outside => outside mem) other

theorem blank [d.Readable] (cs : List Char) : Ending d ms (' ' :: cs) :=
  .cons (by decide) (by decide) cs

theorem comma [d.Readable] (cs : List Char) : Ending d ms (',' :: cs) :=
  .cons (by decide) (by decide) cs

theorem closeParen [d.Readable] (cs : List Char) : Ending d ms (')' :: cs) :=
  .cons (by decide) (by decide) cs

theorem colon [d.Readable] (cs : List Char) : Ending d ms (':' :: cs) :=
  .cons (by decide) (by decide) cs

end Ending

namespace Clear

theorem start : Clear none := rfl

theorem of_ne {t : Token} (other : t.isCommand "array" = false) : Clear (some t) := other

end Clear

/-- After this token the marks stand in front of every ending. -/
def Settles (d : Dialect) (previous : Option Token) (ms : List Mark) : Prop :=
  ∀ cs, Ending d ms cs → Stands d previous ms cs

/-- The marks stand after every token, as what begins with a keyword or a parenthesis does. -/
def Everywhere (d : Dialect) (ms : List Mark) : Prop := ∀ previous, Settles d previous ms

/-- The marks stand after every token but `array`, as what begins with a name does. -/
def Anywhere (d : Dialect) (ms : List Mark) : Prop :=
  ∀ previous, Clear previous → Settles d previous ms

namespace Settles

variable {d : Dialect} [d.Readable] {previous : Option Token} {a b ms : List Mark}

omit [d.Readable] in
theorem nil : Settles d previous [] := fun _ _ => .nil

theorem then_blank (first : Settles d previous a) (next : Settles d (lastRead previous a) b) :
    Settles d previous (a ++ .blank :: b) :=
  fun cs ending => .then_blank (first _ (.blank _)) (next cs ending.of_append.of_cons)

omit [d.Readable] in
theorem keyword {text : String} (complete : Keyword.isComplete text = true)
    (single : Keyword.isExtendable text = false) : Settles d previous [.plain text] :=
  fun _ ending => .keyword complete ending.boundary (Lexeme.Name.longerKeyword?_alone single)

theorem name {text : String} (named : IsName text) (clear : Clear previous) :
    Settles d previous [.name text] :=
  fun _ ending => .name named clear ending.name

/-- Parentheses stand everywhere. -/
theorem parens (inner : Settles d (some openToken) ms) (cs : List Char) :
    Stands d previous (inParens ms) cs := .parens (inner _ (.closeParen _))

/-- A keyword stands apart from what comes after it. -/
theorem keyword_then {text : String} (complete : Keyword.isComplete text = true)
    (single : Keyword.isExtendable text = false) (next : Settles d (some (keywordToken text)) ms) :
    Settles d previous (.plain text :: .blank :: ms) := by
  refine then_blank (a := [.plain text]) (keyword complete single) ?_
  rwa [lastRead_of_tokens (tokens_keyword complete)]

omit [d.Readable] in
/-- A keyword that could go on, but does not with the text after it. -/
theorem keyword_apart {text : String} (complete : Keyword.isComplete text = true)
    (alone : ∀ cs, Ending d ms cs →
      Lexeme.Name.longerKeyword? text (' ' :: (spellAll d ms ++ cs)) = none)
    (next : Settles d (some (keywordToken text)) ms) :
    Settles d previous (.plain text :: .blank :: ms) := by
  intro cs ending
  refine Stands.then_blank (a := [.plain text]) ?_ ?_
  · exact .keyword complete (.cons (by decide) _) (alone cs ending.of_cons.of_cons)
  · rw [lastRead_of_tokens (tokens_keyword complete)]
    exact next cs ending.of_cons.of_cons

/-- A part that stands here, with others after it that stand everywhere. -/
theorem spaced {part : List Mark} {parts : List (List Mark)} (first : Settles d previous part)
    (others : ∀ p ∈ parts, Everywhere d p) : Settles d previous (SqlQuery.spaced (part :: parts)) := by
  induction parts generalizing part previous with
  | nil => rwa [spaced_singleton]
  | cons next parts ih =>
    rw [spaced_cons_cons]
    refine first.then_blank (ih (others next List.mem_cons_self _) fun p mem => ?_)
    exact others p (List.mem_cons_of_mem next mem)

/-- Parts with commas between them, each of which stands after a comma or in front. -/
theorem commas (parts : List (List Mark)) (first : ∀ part ∈ parts.head?, Settles d previous part)
    (others : ∀ part ∈ parts.tail, Settles d (some commaToken) part) :
    Settles d previous (commaSeparated parts) := by
  induction parts generalizing previous with
  | nil => exact nil
  | cons part parts ih =>
    have here : Settles d previous part := first part rfl
    cases parts with
    | nil =>
      rw [commaSeparated_singleton]
      exact here
    | cons next parts =>
      have later : Settles d (some commaToken) (commaSeparated (next :: parts)) := by
        refine ih (fun p head => ?_) fun p mem => ?_
        · obtain rfl : next = p := by simpa using head
          exact others next (by simp)
        · exact others p (by simp only [List.tail_cons] at mem ⊢; simp [mem])
      have separated : Settles d (lastRead previous part)
          ([Mark.plain ","] ++ .blank :: commaSeparated (next :: parts)) := by
        refine then_blank (fun cs _ => .comma) ?_
        rwa [lastRead_of_tokens tokens_comma]
      rw [commaSeparated_cons_cons]
      intro cs ending
      exact .append (here _ (.comma _)) (separated cs ending.of_append)

end Settles

/-- Parentheses close what stands in them. -/
theorem lastRead_inParens (previous : Option Token) (ms : List Mark) :
    lastRead previous (inParens ms) = some closeToken := by
  rw [inParens, lastRead_append, lastRead_of_tokens tokens_close]

theorem Everywhere.anywhere {d : Dialect} {ms : List Mark} (h : Everywhere d ms) : Anywhere d ms :=
  fun previous _ => h previous

namespace Everywhere

variable {d : Dialect} {ms : List Mark}

theorem keyword {text : String} (complete : Keyword.isComplete text = true)
    (single : Keyword.isExtendable text = false) : Everywhere d [.plain text] :=
  fun _ => .keyword complete single

theorem word {text : String} (mem : text ∈ contextWords) : Everywhere d [.plain text] :=
  fun _ _ ending => .words (contextWords_read text mem) ending.boundary

variable [d.Readable]

theorem keyword_then {text : String} (complete : Keyword.isComplete text = true)
    (single : Keyword.isExtendable text = false) (next : Settles d (some (keywordToken text)) ms) :
    Everywhere d (.plain text :: .blank :: ms) :=
  fun _ => .keyword_then complete single next

theorem parens (inner : Settles d (some openToken) ms) : Everywhere d (inParens ms) :=
  fun _ cs _ => inner.parens cs

theorem spaced {parts : List (List Mark)} (each : ∀ part ∈ parts, Everywhere d part) :
    Everywhere d (SqlQuery.spaced parts) := by
  cases parts with
  | nil => exact fun _ => .nil
  | cons part parts =>
    exact fun _ => .spaced (each part List.mem_cons_self _)
      fun p mem => each p (List.mem_cons_of_mem part mem)

/-- Words that each are a keyword or mean something only where they stand. -/
theorem words {ws : List String} (each : ∀ word ∈ ws, Everywhere d [.plain word]) :
    Everywhere d (writeWords ws) :=
  spaced (List.forall_mem_map.2 each)

omit [d.Readable] in
/-- What is written only if it is present. -/
theorem optional {α : Type} {o : Option α} {f : Option α → List Mark} (absent : f none = [])
    (present : ∀ a ∈ o, Everywhere d (f (some a))) : Everywhere d (f o) := by
  cases o with
  | none =>
    rw [absent]
    exact fun _ => .nil
  | some a => exact present a rfl

theorem clauses {parts : List (List Mark)} (each : ∀ part ∈ parts, Everywhere d part) :
    Everywhere d (clauseMarks parts) :=
  spaced fun part mem => each part (List.mem_filter.1 mem).1

end Everywhere

namespace Anywhere

variable {d : Dialect} [d.Readable] {ms : List Mark}

theorem name {text : String} (named : IsName text) : Anywhere d [.name text] :=
  fun _ clear => .name named clear

theorem spaced {part : List Mark} {parts : List (List Mark)} (first : Anywhere d part)
    (others : ∀ p ∈ parts, Everywhere d p) : Anywhere d (SqlQuery.spaced (part :: parts)) :=
  fun previous clear => .spaced (first previous clear) others

theorem commas {parts : List (List Mark)} (each : ∀ part ∈ parts, Anywhere d part) :
    Anywhere d (commaSeparated parts) :=
  fun _ clear => .commas parts (fun part head => each part (List.mem_of_mem_head? head) _ clear)
    fun part mem => each part (List.mem_of_mem_tail mem) _ (.of_ne rfl)

end Anywhere

end SqlQuery
