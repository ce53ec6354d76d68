import Mathlib.Data.List.TakeWhile
import SqlQuery.Proofs.Parsed.Shape
import SqlQuery.Proofs.RoundTrip.Word
import SqlQuery.Proofs.Written.Writer

/-!
What the grammar accepts can be written, except for names: a call, a type, a specifier and the field
of an `extract` may be quoted as any text, and not every text is written as it is.
-/

namespace SqlQuery

/-- The names in a node that are written like keywords. -/
def Node.bareNames : Node → List String
  | .expr (.function call) => [call.name]
  | .expr (.type ref) => [ref.name]
  | .expr (.specifiedString specifier _) => [specifier]
  | .expr (.binary (.raw field) _ _) => [field]
  | _ => []

theorem IsPlain.validate {text : String} (h : IsPlain text) : validate text = .ok () := by
  rw [SqlQuery.validate, h]
  rfl

theorem mem_dropWhile {α : Type} {p : α → Bool} {a : α} {as : List α} (mem : a ∈ as)
    (kept : p a = false) : a ∈ as.dropWhile p := by
  rw [← List.takeWhile_append_dropWhile (p := p) (l := as), List.mem_append] at mem
  rcases mem with dropped | rest
  · rw [List.mem_takeWhile_imp dropped] at kept
    cases kept
  · exact rest

/-- A text with a letter is no mark of its own. -/
theorem validate_of_letter {text : String} {c : Char} (mem : c ∈ text.toList)
    (letter : c.isAlpha = true) : validate text = .ok () := by
  have blank : Text.isWhiteSpace c = false :=
    not_whiteSpace (by simp [isBareChar, Text.isAlphanum, letter])
  have kept : c ∈ (Text.trim text).toList := by
    rw [Text.trim, Text.trimChars, String.toList_ofList, List.mem_reverse]
    exact mem_dropWhile (List.mem_reverse.2 (mem_dropWhile mem blank)) blank
  have nonempty : (Text.trim text).isEmpty = false := by
    rw [Bool.eq_false_iff, Ne, String.isEmpty_iff]
    intro empty
    rw [empty] at kept
    cases kept
  have marks : invalidKeywords.all (fun mark => mark.toList.all fun c => !c.isAlpha) = true := by
    decide
  have other : invalidKeywords.contains (Text.trim text) = false := by
    rw [List.contains_eq_mem, decide_eq_false_iff_not]
    intro invalid
    have alone := List.all_eq_true.1 (List.all_eq_true.1 marks _ invalid) c kept
    rw [letter] at alone
    cases alone
  rw [validate, rawText, nonempty, other]
  rfl

namespace Node

variable {T : Token → Prop} {m : Node}

theorem plain_operator {operator : String} {operand : Expr} (h : operand.IsOperand operator) :
    IsPlain operator := by
  unfold Expr.IsOperand at h
  split at h
  case h_1 power found =>
    exact isPlain_of (prefixes_plain (operator, power) (Power.prefix?_mem found))
  case h_2 =>
    obtain ⟨rfl, _⟩ := h
    exact isPlain_of (by decide)

/-- The texts of a node are the words of the grammar, kinds of join, or names. -/
theorem text_sort {role text : String} (parsed : m.Parsed T) (own : (role, text) ∈ m.texts) :
    IsPlain text ∨ JoinParsed T text ∨ text ∈ m.bareNames := by
  unfold texts at own
  split at own
  case h_1 | h_2 | h_6 =>
    obtain ⟨_, rfl⟩ := Prod.mk.inj (List.mem_singleton.1 own)
    exact .inr (.inr (List.mem_singleton.2 rfl))
  case h_3 operator operand =>
    obtain ⟨_, rfl⟩ := Prod.mk.inj (List.mem_singleton.1 own)
    left
    rcases parsed with rfl | operand
    · exact isPlain_of (by decide)
    · exact plain_operator operand
  case h_4 left operator right =>
    obtain ⟨_, rfl⟩ := Prod.mk.inj (List.mem_singleton.1 own)
    left
    rcases parsed with ⟨rfl, _⟩ | ⟨power, found, _⟩
    · exact isPlain_of (by decide)
    · exact infix_plain found
  case h_5 left operator right =>
    obtain ⟨_, rfl⟩ := Prod.mk.inj (List.mem_singleton.1 own)
    exact .inl (set_plain parsed.1)
  case h_7 j =>
    obtain ⟨_, rfl⟩ := Prod.mk.inj (List.mem_singleton.1 own)
    exact .inr (.inl parsed.1)
  case h_8 => cases own

/-- The words of the grammar are valid, and so are the kinds of join. -/
theorem validate_text {role text : String} (parsed : m.Parsed T) (own : (role, text) ∈ m.texts) :
    validate text = .ok () ∨ text ∈ m.bareNames := by
  rcases text_sort parsed own with plain | (rfl | ⟨_, _, _, _, ends⟩) | named
  · exact .inl plain.validate
  · exact .inl (isPlain_of (by decide)).validate
  · exact .inl (validate_of_letter (ends.subset (by decide : 'j' ∈ "join".toList)) rfl)
  · exact .inr named

/-- Every text that is written like a keyword is valid, or such a name. -/
theorem validate_raw {n : Node} {text : String} (parsed : n.AllParsed T) (vouched : n.Vouched)
    (whole : n.Whole) (mem : .expr (.raw text) ∈ n.walk) :
    validate text = .ok () ∨ ∃ m ∈ n.walk, text ∈ m.bareNames := by
  have shaped := wellShaped_of_parsed parsed vouched
  rcases mem_walk.1 mem with rfl | below
  · exact whole.elim
  obtain ⟨m, inside, role, child⟩ := below.parent
  rcases (shaped m inside).2 _ child with whole | placed
  · exact whole.elim
  cases placed with
  | text own => exact (validate_text (parsed m inside) own).imp_right fun named => ⟨m, inside, named⟩
  | field field value => exact .inr ⟨_, inside, List.mem_singleton.2 rfl⟩

/-- A node that the grammar gives is written, unless it is too deep or a name is not valid. -/
theorem writeAt_parsed {n : Node} {d : Dialect} {limit levels : Nat} {e : WriteError}
    (parsed : n.AllParsed T) (vouched : n.Vouched) (whole : n.Whole)
    (failed : n.writeAt d limit levels = .error e) :
    e = .tooDeep limit ∨ ∃ m ∈ n.walk, ∃ name ∈ m.bareNames, rawText name = .error e := by
  rcases checkAt_error (writeAt_error_iff.1 failed) with deep | spoils
  · exact .inl deep
  right
  cases spoils with
  | text mem invalid =>
    rcases validate_raw parsed vouched whole mem with valid | ⟨m, inside, named⟩
    · cases valid.symm.trans invalid
    · exact ⟨m, inside, _, named, rawText_of_validate invalid⟩
  | window mem unbounded same =>
    have bounds : WindowSpec.hasBounds _ = true := (parsed _ mem).2
    cases unbounded.symm.trans bounds

end Node

theorem Query.statement_of_parse {text : String} {limit : Nat} {query : Query}
    (read : Query.parse text limit = .ok query) :
    ∃ lexemes, (scan text).2 = .ok lexemes ∧
      (Session.start lexemes limit).statement.1 = .ok query := by
  unfold Query.parse at read
  split at read
  · cases read
  · rename_i lexemes scanned
    exact ⟨lexemes, scanned, read⟩

/-- A query that is read from a text is written in every dialect, unless it nests deeper than the
limit or one of its bare names is not valid. -/
theorem parse_writable {text : String} {limit : Nat} {query : Query}
    (read : Query.parse text limit = .ok query) (d : Dialect) (levels : Nat) :
    (∃ out, (Node.query query).write d levels = .ok out) ∨
      (Node.query query).write d levels = .error (.tooDeep levels) ∨
      ∃ m ∈ (Node.query query).walk, ∃ name ∈ m.bareNames, ∃ e, rawText name = .error e ∧
        (Node.query query).write d levels = .error e := by
  obtain ⟨lexemes, _, accepted⟩ := Query.statement_of_parse read
  obtain ⟨rest, ran⟩ := Session.statement_eq_ok.1 accepted
  obtain ⟨_, parsed⟩ := Grammar.statementAt_sound (fun _ => True) limit _ query rest
    (fun _ _ => trivial) trivial ran
  rw [Node.write]
  cases written : (Node.query query).writeAt d levels levels with
  | ok marks => exact .inl ⟨_, rfl⟩
  | error e =>
    rcases Node.writeAt_parsed parsed trivial trivial written with rfl | ⟨m, mem, name, bare, invalid⟩
    · exact .inr (.inl rfl)
    · exact .inr (.inr ⟨m, mem, name, bare, e, invalid, rfl⟩)

/-- A semicolon in quotes may name a call, and is not written as one. -/
theorem parse_writable_semicolon :
    ∃ query, Query.parse "select \";\"(1)" 9 = .ok query ∧
      (Node.query query).write .standard 9 = .error (.invalidKeyword ";") ∧
      ∃ m ∈ (Node.query query).walk, ∃ name ∈ m.bareNames,
        rawText name = .error (.invalidKeyword ";") := by
  obtain ⟨query, read, written⟩ := Except.toOption_map_eq_some
    (b := (Except.error (.invalidKeyword ";") : Written)) (r := Query.parse "select \";\"(1)" 9)
    (f := fun query => (Node.query query).write .standard 9)
    (by rw [Query.parse_eq_run]; decide +kernel)
  refine ⟨query, read, written, ?_⟩
  rcases parse_writable read .standard 9 with ⟨out, same⟩ | deep | ⟨m, mem, name, bare, e, invalid, same⟩
  · cases written.symm.trans same
  · cases written.symm.trans deep
  · cases written.symm.trans same
    exact ⟨m, mem, name, bare, invalid⟩

end SqlQuery
