import SqlQuery.Dialect.Preset
import SqlQuery.Proofs.Parameter.Order
import SqlQuery.Proofs.Parsed.Renumber
import SqlQuery.Proofs.RoundTrip.Again
import SqlQuery.Proofs.Written.Shown

/-!
A parsed query is read back from what is written of it in any of the known dialects, with the same
parameters where they have names and with numbered ones where they have none.
-/

namespace SqlQuery

variable {d : Dialect}

theorem punctuationKind?_ne_parameter {text : String} {kind : Kind} (h : punctuationKind? text = some kind) :
    kind ≠ .parameter := by
  unfold punctuationKind? Lexeme.Symbol.punctuation? at h
  split at h
  · split at h <;> grind
  · cases h

theorem plainTokens_ne_parameter {text : String} : ∀ t ∈ plainTokens text, t.kind ≠ .parameter := by
  unfold plainTokens
  split
  · simp
  split
  · rename_i kind found
    simpa using punctuationKind?_ne_parameter found
  split
  · simp
  · refine List.forall_mem_map.2 fun word _ => ?_
    unfold Token.ofWord
    split <;> nofun

/-- Only marks for parameters are read as parameters. -/
theorem Mark.tokens_ne_parameter {m : Mark} (other : m.parameterName? = none) :
    ∀ t ∈ m.tokens, t.kind ≠ .parameter := by
  cases m with
  | parameter name => cases other
  | blank => exact nofun
  | plain text => exact plainTokens_ne_parameter
  | literal value => cases value <;> simp [tokens, Literal.token]
  | _ => simp [tokens]

theorem Token.numbered_append {ts more : List Token} (none : ∀ t ∈ ts, t.kind ≠ .parameter)
    (ordinal : Nat) : numbered d ordinal (ts ++ more) = ts ++ numbered d ordinal more := by
  induction ts with
  | nil => rfl
  | cons t ts ih =>
    obtain ⟨first, others⟩ := List.forall_mem_cons.1 none
    rw [List.cons_append, numbered, if_neg fun both => first both.2, ih others]
    rfl

namespace Mark

theorem renumber_eq_pure {m : Mark} (other : m.parameterName? = none) : m.renumber = pure m := by
  cases m with
  | parameter name => cases other
  | _ => rfl

/-- Marks with numbered parameters are read with numbered parameters. -/
theorem read_renumberAll (anonymous : d.parameterStyle = .anonymous) (ms : List Mark) (k : Nat) :
    read (renumberAll ms k).1 = Token.numbered d k (read ms) := by
  induction ms generalizing k with
  | nil => rfl
  | cons m ms ih =>
    rw [renumberAll_cons_fst, read_cons, read_cons, ih]
    cases name : m.parameterName? with
    | none =>
      rw [renumber_eq_pure name]
      exact (Token.numbered_append (tokens_ne_parameter name) k).symm
    | some text =>
      obtain rfl : m = .parameter text := by
        cases m <;> simp_all [parameterName?]
      exact (if_pos ⟨anonymous, rfl⟩ : Token.numbered d k (⟨.parameter, text⟩ :: read ms) = _).symm

/-- Their names are the numbers that come next. -/
theorem parameters_renumberAll (ms : List Mark) (k : Nat) :
    parameters (renumberAll ms k).1 = ordinalsAfter k (parameters ms).length := by
  induction ms generalizing k with
  | nil => rfl
  | cons m ms ih =>
    rw [renumberAll_cons_fst, parameters_cons, parameters_cons, ih]
    cases name : m.parameterName? with
    | none =>
      rw [renumber_eq_pure name]
      simp [name]
    | some text =>
      obtain rfl : m = .parameter text := by
        cases m <;> simp_all [parameterName?]
      have next : (Mark.parameter text).renumber k = (.parameter (toString (k + 1)), k + 1) := rfl
      rw [next]
      simp [parameterName?, ordinalsAfter, List.range'_succ]

end Mark

namespace Query

/-- The query as it is read back where parameters are written in this style. -/
def readIn (q : Query) : ParameterStyle → Query
  | .named => q
  | .anonymous => q.numbered

theorem tokens_readIn (d : Dialect) (q : Query) :
    (q.readIn d.parameterStyle).tokens d = Token.numbered d 0 (q.tokens d) := by
  cases style : d.parameterStyle with
  | named => exact (Token.numbered_named style 0 _).symm
  | anonymous =>
    have marks := congrArg Prod.fst (congrFun (q.marks_renumber style) 0)
    have same : q.numbered.marks d = (Mark.renumberAll (q.marks d) 0).1 := marks.symm
    exact (congrArg Mark.read same).trans (Mark.read_renumberAll style _ 0)

/-- The parameters of a numbered query are the first ordinals, in the order of the walk. -/
theorem parameters_numbered (q : Query) :
    (Node.query q.numbered).walk.filterMap Node.parameterName? =
      ordinals ((Node.query q).walk.filterMap Node.parameterName?).length := by
  have names (q : Query) : (Node.query q).walk.filterMap Node.parameterName? =
      Mark.parameters (q.marks Preset.mysql.dialect) :=
    (Node.parameters_eq_walk _).symm.trans (Node.parameters_marks _ _).symm
  have marks := congrArg Prod.fst (congrFun (q.marks_renumber (d := Preset.mysql.dialect) rfl) 0)
  have same : q.numbered.marks Preset.mysql.dialect =
      (Mark.renumberAll (q.marks Preset.mysql.dialect) 0).1 := marks.symm
  rw [names, names, same, Mark.parameters_renumberAll]
  rfl

theorem WellFormed.readIn {q : Query} (h : (Node.query q).WellFormed) (style : ParameterStyle) :
    (Node.query (q.readIn style)).WellFormed := by
  cases style with
  | named => exact h
  | anonymous => exact h.renumber 0

theorem levels_readIn_le (q : Query) (style : ParameterStyle) :
    (Node.query (q.readIn style)).levels ≤ (Node.query q).levels := by
  cases style with
  | named => exact Nat.le_refl _
  | anonymous => exact (Node.query q).levels_renumber_le 0

end Query

/-- The closing bracket of an array does not come right after one that closes a quoted name. -/
def Node.isApart (d : Dialect) : Node → Bool
  | .expr (.array content) => d.closer != ']' || !Mark.endsQuoted d (content.marks d)
  | _ => true

/-- A known dialect with names quoted always or only where they have to be. -/
def Preset.spelling (p : Preset) (policy : QuotePolicy) : Dialect :=
  { p.dialect with quotePolicy := policy }

instance (p : Preset) (policy : QuotePolicy) : Dialect.Readable (p.spelling policy) :=
  inferInstanceAs (Dialect.Readable { p.dialect with quotePolicy := policy })

/-- The standard output of a parsed query is parsed as the query without redundant aliases, and what is
written of it in a known dialect is parsed as the same, with parameters numbered in the order of the
walk where the dialect has no names for them. -/
theorem Query.parse_spelling {text standardOut : String} {limit levels more : Nat} {q : Query}
    (p : Preset) (policy : QuotePolicy) (read : Query.parse text limit = .ok q)
    (written : (Node.query q).write .standard levels = .ok standardOut)
    (clear : ∀ m ∈ (Node.query q.erase).walk, m.Unmistakable)
    (apart : ∀ m ∈ (Node.query q.erase).walk, m.isApart (p.spelling policy) = true)
    (enough : limit + 2 * (Node.query q).lates ≤ more ∨ (Node.query q).levels < more) :
    Query.parse standardOut more = .ok q.erase ∧
      ∃ out t, (Node.query q).write (p.spelling policy) levels = .ok out ∧
        Query.parse out more = .ok t ∧
        (p.parameterStyle = .named → t = q.erase) ∧
        (p.parameterStyle = .anonymous → t = q.erase.numbered ∧
          (Node.query t).walk.filterMap Node.parameterName? =
            ordinals ((Node.query q.erase).walk.filterMap Node.parameterName?).length) := by
  have bracketed : (p.spelling policy).closer = ']' → ∀ content,
      .expr (.array content) ∈ (Node.query q.erase).walk →
        Mark.endsQuoted (p.spelling policy) (content.marks (p.spelling policy)) = false := by
    intro bracket content mem
    simpa [Node.isApart, bracket] using apart _ mem
  obtain ⟨lexemes, scanned, numbered⟩ := scan_erase read clear bracketed
  have tokens : Lexeme.tokens lexemes = (q.erase.readIn p.parameterStyle).tokens (p.spelling policy) :=
    numbered.trans (tokens_readIn (p.spelling policy) q.erase).symm
  -- Whether a tree can be written does not depend on the spelling.
  have rewritten := ((Node.query q).write_erase .standard levels).1.trans written
  have spelled := ((Node.query q).write_erase (p.spelling policy) levels).1
  refine ⟨parse_erase read written clear enough, _, q.erase.readIn p.parameterStyle,
    spelled.symm.trans (Node.write_ok_iff.2 ⟨(Node.write_ok_iff.1 rewritten).1, rfl⟩), ?_, ?_, ?_⟩
  · apply parse_of_tokens scanned
    rw [tokens]
    have nested := levels_lt_of_parse read
    have erased : (Node.query q.erase).levels ≤ (Node.query q).levels := (Node.query q).levels_erase_le
    have least := levels_readIn_le q.erase p.parameterStyle
    have fits := WellFormed.readIn (wellFormed_erase read clear).2 p.parameterStyle
    exact Grammar.statement_reads fits (by omega)
  · intro named
    rw [named, readIn]
  · intro anonymous
    rw [anonymous, readIn]
    exact ⟨rfl, q.erase.parameters_numbered⟩

theorem Query.parse_spelling_numbered : ∃ q standardOut,
    Query.parse "select \"x y\", :b from t as t where a in (:b, array[\"x y\"])" 20 = .ok q ∧
    (Node.query q).write .standard 20 = .ok standardOut ∧
    (∀ m ∈ (Node.query q.erase).walk, m.Unmistakable) ∧
    (∀ m ∈ (Node.query q.erase).walk, m.isApart (Preset.mysql.spelling .always) = true) ∧
    20 + 2 * (Node.query q).lates ≤ 20 ∧ Query.parse standardOut 20 = .ok q.erase ∧
    ∃ out, (Node.query q).write (Preset.mysql.spelling .always) 20 = .ok out ∧
      Query.parse out 20 = .ok q.erase.numbered := by
  obtain ⟨q, read, facts⟩ := Except.toOption_map_eq_some
    (b := ((Except.ok "select \"x y\", :b from t where a in (:b, array[\"x y\"])" : Written), true, true, 0))
    (r := Query.parse "select \"x y\", :b from t as t where a in (:b, array[\"x y\"])" 20)
    (f := fun q => ((Node.query q).write .standard 20,
      decide (∀ m ∈ (Node.query q.erase).walk, m.Unmistakable),
      decide (∀ m ∈ (Node.query q.erase).walk, m.isApart (Preset.mysql.spelling .always) = true),
      (Node.query q).lates)) (by rw [Query.parse_eq_run]; decide +kernel)
  obtain ⟨written, clear, apart, lates⟩ := by simpa only [Prod.mk.injEq, decide_eq_true_eq] using facts
  have enough : 20 + 2 * (Node.query q).lates ≤ 20 := by omega
  obtain ⟨again, out, t, spelled, parsed, _, numbered⟩ :=
    Query.parse_spelling .mysql .always read written clear apart (.inl enough)
  obtain ⟨rfl, _⟩ := numbered rfl
  exact ⟨q, _, read, written, clear, apart, enough, again, out, spelled, parsed⟩

end SqlQuery
