import SqlQuery.Proofs.Parser.Query
import SqlQuery.Proofs.Casing.Query
import SqlQuery.Proofs.Casing.Scan

/-!
The case of letters does not matter. Texts that differ in nothing else have the same lexemes in the
same places and are read as the same query, or fail in the same place for the same reason.
-/

namespace SqlQuery

open Text

/-- Both results are related values, or both are related errors. -/
inductive Alike {ε α : Type} (values : α → α → Prop) (errors : ε → ε → Prop) :
    Except ε α → Except ε α → Prop
  | ok {a a' : α} (same : values a a') : Alike values errors (.ok a) (.ok a')
  | error {e e' : ε} (same : errors e e') : Alike values errors (.error e) (.error e')

namespace Alike

variable {ε δ α β : Type} {values : α → α → Prop} {errors : ε → ε → Prop} {x x' : Except ε α}

/-- Results that come to the same once values and errors are changed so. -/
theorem of_map_eq {f : α → β} {g : ε → δ}
    (same : (x.map f).mapError g = (x'.map f).mapError g) :
    Alike (fun a a' => f a = f a') (fun e e' => g e = g e') x x' := by
  match x, x' with
  | .ok a, .ok a' => exact .ok (Except.ok.inj same)
  | .error e, .error e' => exact .error (Except.error.inj same)

theorem imp {values' : α → α → Prop} {errors' : ε → ε → Prop} (h : Alike values errors x x')
    (value : ∀ a a', values a a' → values' a a') (error : ∀ e e', errors e e' → errors' e e') :
    Alike values' errors' x x' := by
  cases h with
  | ok same => exact .ok (value _ _ same)
  | error same => exact .error (error _ _ same)

end Alike

namespace Lexeme

/-- Lexemes of the same kind in the same place, whose texts differ in case at most. Keywords do not
differ at all. -/
structure SameButCase (l l' : Lexeme) : Prop where
  kind : l.kind = l'.kind
  position : l.position = l'.position
  stop : l.stop = l'.stop
  keyword : l.kind = .command → l.text = l'.text
  text : sameIgnoringCase l.text l'.text = true

theorem SameButCase.of_lower {l l' : Lexeme} (same : l.lower = l'.lower) : l.SameButCase l' := by
  have tokens : l.toToken.lower = l'.toToken.lower := congrArg toToken same
  have kinds : l.kind = l'.kind := by
    rw [← Token.lower_kind l.toToken, tokens, Token.lower_kind]
  have positions : l.lower.position = l'.lower.position := congrArg Lexeme.position same
  have stops : l.lower.stop = l'.lower.stop := congrArg Lexeme.stop same
  constructor
  case kind => exact kinds
  case position => exact positions
  case stop => exact stops
  case keyword =>
    intro keyword
    rw [← Token.text_of_kind rfl keyword, tokens, Token.text_of_kind rfl (kinds ▸ keyword)]
  case text =>
    rw [sameIgnoringCase, beq_iff_eq, ← Token.lower_lower_text, tokens, Token.lower_lower_text]

end Lexeme

/-- What is wrong with a text, but for where and with what the text has there. -/
inductive ErrorKind where
  | scan (fault : Fault)
  | unexpected (expected : String)
  | trailing
  | tooDeep (limit : Nat)
  deriving DecidableEq, Repr

namespace ParseError

def kind : ParseError → ErrorKind
  | .scan error => .scan error.fault
  | .unexpected _ _ expected _ => .unexpected expected
  | .trailing _ _ _ => .trailing
  | .tooDeep limit _ => .tooDeep limit

/-- The kind of an error and its place. -/
def place (e : ParseError) : ErrorKind × Nat := (e.kind, e.position)

end ParseError

/-- The kind of a fault and its place. -/
def ScanError.place (e : ScanError) : Fault × Nat := (e.fault, e.position)

theorem scan_lower (text : String) :
    (scan (lower text)).2.mapError ScanError.place =
      ((scan text).2.map (List.map Lexeme.lower)).mapError ScanError.place := by
  have ran := Scan.run_lower none 0 0 text.toList
  rw [Option.map_none] at ran
  rw [scan, scan, toList_lower]
  dsimp only
  rw [ran]
  cases (Scan.run none 0 0 text.toList).outcome <;> rfl

namespace Session

theorem tokens_lower (ls : List Lexeme) :
    Lexeme.tokens (ls.map Lexeme.lower) = (Lexeme.tokens ls).map Token.lower := by
  simp [Lexeme.tokens, Lexeme.lower]

variable (ls : List Lexeme) (limit : Nat)

theorem positionOf_lower (rest : List Token) :
    (start (ls.map Lexeme.lower) limit).positionOf (rest.map Token.lower) =
      (start ls limit).positionOf rest := by
  simp only [positionOf, indexOf, endPosition, start, List.length_map, List.getElem?_map,
    List.getLast?_map, Option.map_map]
  rfl

/-- A rule stops in the same place, and says the same but for what it finds there. -/
theorem errorOf_lower (stop : Stop) :
    ((start (ls.map Lexeme.lower) limit).errorOf stop.lower).place =
      ((start ls limit).errorOf stop).place := by
  obtain ⟨cause, rest, raised⟩ := stop
  have position := positionOf_lower ls limit rest
  cases cause <;>
    simp only [Stop.lower, errorOf, ParseError.place, ParseError.kind, ParseError.position,
      position]
  rfl

theorem run_lower {α : Type} {g : α → α} {rule : Rule α} (lowers : Rule.Lowers g rule rule) :
    ((start (ls.map Lexeme.lower) limit).run rule).1.mapError ParseError.place =
      (((start ls limit).run rule).1.map g).mapError ParseError.place := by
  have rest : (start (ls.map Lexeme.lower) limit).rest = (start ls limit).rest.map Token.lower :=
    tokens_lower ls
  rw [run, rest, lowers, run]
  cases ran : rule (start ls limit).rest with
  | ok result => rfl
  | error stop => exact congrArg Except.error (errorOf_lower ls limit stop)

end Session

theorem Query.parse_lower (text : String) (limit : Nat) :
    (Query.parse (Text.lower text) limit).mapError ParseError.place =
      ((Query.parse text limit).map Query.lower).mapError ParseError.place := by
  have scanned := scan_lower text
  unfold Query.parse
  cases result : (scan text).2 with
  | error e =>
    cases result' : (scan (Text.lower text)).2 with
    | error e' =>
      rw [result, result'] at scanned
      obtain ⟨fault, position⟩ := Prod.mk.inj (Except.error.inj scanned)
      exact congrArg Except.error (Prod.ext (congrArg ErrorKind.scan fault) position)
    | ok ls' =>
      rw [result, result'] at scanned
      cases scanned
  | ok ls =>
    cases result' : (scan (Text.lower text)).2 with
    | error e' =>
      rw [result, result'] at scanned
      cases scanned
    | ok ls' =>
      rw [result, result'] at scanned
      obtain rfl : ls' = ls.map Lexeme.lower := Except.ok.inj scanned
      simp only [Session.statement_start]
      exact Session.run_lower ls limit (Grammar.statementAt_lowers _)

/-- The texts have lexemes that differ in case at most, and are read as queries that do, or both
fail in the same place for the same reason. -/
structure ReadAlike (limit : Nat) (text text' : String) : Prop where
  lexemes : Alike (List.Forall₂ Lexeme.SameButCase)
    (fun e e' => e.fault = e'.fault ∧ e.position = e'.position) (scan text).2 (scan text').2
  query : Alike (fun query query' => query.lower = query'.lower)
    (fun e e' => e.kind = e'.kind ∧ e.position = e'.position)
    (Query.parse text limit) (Query.parse text' limit)

/--
The case of letters does not matter. Texts that differ in nothing else scan into lexemes of the same
kinds in the same places, with the same keywords and with other texts that differ in case at most,
or the same fault is met in the same place. So they are read as queries that are the same in
lowercase, or fail with errors of the same kind in the same place.
-/
theorem parse_ignoring_case {text text' : String} (same : sameIgnoringCase text text' = true)
    (limit : Nat) : ReadAlike limit text text' := by
  rw [sameIgnoringCase, beq_iff_eq] at same
  constructor
  case lexemes =>
    have scanned := scan_lower text
    rw [same, scan_lower text'] at scanned
    refine (Alike.of_map_eq scanned.symm).imp (fun ls ls' equal => ?_) fun e e' => Prod.mk.inj
    rw [← List.forall₂_eq_eq_eq, List.forall₂_map_left_iff, List.forall₂_map_right_iff] at equal
    exact equal.imp fun _ _ => Lexeme.SameButCase.of_lower
  case query =>
    have parsed := Query.parse_lower text limit
    rw [same, Query.parse_lower text'] at parsed
    exact (Alike.of_map_eq parsed.symm).imp (fun _ _ => id) fun e e' => Prod.mk.inj

/-- Keywords, words that are none, the names of a function and a type, a radix and the specifier of
a string. -/
theorem parse_ignoring_case_words :
    (Query.parse "SELECT Extract(Year FROM a)+0X1F FROM E ORDER  BY Date '1', E'x' NULLS First"
      9).isOk = true ∧
    ReadAlike 9 "SELECT Extract(Year FROM a)+0X1F FROM E ORDER  BY Date '1', E'x' NULLS First"
      "select EXTRACT(year from A)+0x1f from e Order  By DATE '1', e'X' nulls FIRST" :=
  ⟨by rw [Query.parse_eq_run]; decide +kernel, parse_ignoring_case (by decide +kernel) 9⟩

end SqlQuery
