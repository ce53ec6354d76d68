import SqlQuery.Proofs.Parser.Query
import SqlQuery.Proofs.Reading.Tree
import SqlQuery.Proofs.Scanning.Clause
import SqlQuery.Proofs.Written.Writer

/-!
What is written of a tree is read back: its marks are scanned into its tokens, and these are read as
the tree.
-/

namespace SqlQuery

open Mark

variable {d : Dialect}

/-- The text of every node below and of the node itself is read as what it is. -/
def Node.IsLegible (d : Dialect) (n : Node) : Prop := ∀ m ∈ n.walk, m.Legible d

namespace Node

variable [d.Readable]

/-- What stands where values or queries are written. -/
def Placed (d : Dialect) : Node → Prop
  | .expr e => e.isValue → e.Placed d
  | .query q => Everywhere d (q.marks d)
  | _ => True

/-- Every node that is well-formed and legible is placed. -/
theorem placed {n : Node} (wellFormed : n.WellFormed) (legible : n.IsLegible d) : n.Placed d := by
  induction measured : n.measure using Nat.strongRecOn generalizing n with
  | ind size ih =>
    have below (m : Node) (below : n.Below m) : m.Placed d :=
      ih _ (measured ▸ measure_lt below) (wellFormed.below below)
        (fun k mem => legible k (below.walk mem)) rfl
    have parts : n.PartsPlaced d := ⟨fun e inside => below _ inside, fun q inside => below _ inside,
      fun m inside => wellFormed m (mem_walk.2 (.inr inside)),
      fun m inside => legible m (mem_walk.2 (.inr inside))⟩
    have fits := wellFormed n (mem_walk.2 (.inl rfl))
    have own := legible n (mem_walk.2 (.inl rfl))
    cases n with
    | expr e => exact Expr.placed parts fits own
    | query q => exact Query.placed parts fits
    | _ => trivial

omit [d.Readable] in
theorem write_eq {n : Node} {limit : Nat} (wellFormed : n.WellFormed) (levels : n.measure < limit) :
    n.write d limit = .ok (String.ofList (spellAll d (n.marks d))) := by
  rw [write, writeAt_marks wellFormed levels]
  rfl

end Node

/-- The lexemes of a text that is scanned into these tokens. -/
theorem Scans.lexemes {cs : List Char} {ts : List Token} (h : Scans d none cs ts) :
    ∃ ls, (scan (String.ofList cs)).2 = .ok ls ∧ Lexeme.tokens ls = Token.numbered d 0 ts := by
  obtain ⟨ls, ran, same⟩ := h 0 0
  refine ⟨ls, ?_, same⟩
  rw [scan, String.toList_ofList]
  simp only [ran]
  rfl

/-- The lexemes of a text that a rule for the whole statement reads. -/
theorem parse_of_tokens {text : String} {lexemes : List Lexeme} {limit : Nat} {query : Query}
    (scanned : (scan text).2 = .ok lexemes)
    (read : (Grammar.statementAt limit).Gives (Lexeme.tokens lexemes) query []) :
    Query.parse text limit = .ok query := by
  have run : Grammar.statementAt limit (Lexeme.tokens lexemes) = .ok (query, []) := read
  rw [Query.parse, scanned]
  exact Session.statement_eq_ok.2 ⟨[], run⟩

namespace Query

variable [d.Readable] {q : Query}

theorem scans (wellFormed : (Node.query q).WellFormed) (legible : (Node.query q).IsLegible d) :
    Scans d none (spellAll d (q.marks d)) (q.tokens d) := by
  have everywhere : Everywhere d (q.marks d) := Node.placed wellFormed legible
  have scanned := everywhere none [] .nil [] .nil
  rwa [List.append_nil, List.append_nil] at scanned

/-- What is written of a well-formed and legible query with enough levels allowed is read back as
the query, where parameters keep their names. -/
theorem parse_write (wellFormed : (Node.query q).WellFormed) (legible : (Node.query q).IsLegible d)
    (named : d.parameterStyle = .named) : ∃ bound, ∀ levels limit, bound ≤ levels → bound ≤ limit →
      ∃ text, (Node.query q).write d levels = .ok text ∧ Query.parse text limit = .ok q := by
  obtain ⟨lexemes, scanned, tokens⟩ := (scans wellFormed legible).lexemes
  rw [Token.numbered_named named] at tokens
  refine ⟨max ((Node.query q).levels + 1) ((Node.query q).measure + 1),
    fun levels limit enough allowed => ?_⟩
  refine ⟨_, Node.write_eq wellFormed (by omega), parse_of_tokens scanned ?_⟩
  rw [tokens]
  exact Grammar.statement_reads wellFormed (by omega)

end Query

end SqlQuery
