import SqlQuery.Proofs.Reading.Source

/-!
What stands after the rows of a select are chosen is read back: limits, fetches and locks. Their
words are names elsewhere.
-/

namespace SqlQuery.Grammar

open Rule

variable {d : Dialect} {scope : Scope} {level : Level} {rest : List Token}

theorem breaks_later (n : Nat) : ∀ t ∈ laterTokens n, t.breaks = true := by
  intro t mem
  refine breaks_item t (List.mem_cons_of_mem _ ?_)
  rcases List.mem_append.1 mem with clause | ended
  · exact List.mem_append_left _ (List.mem_of_mem_drop clause)
  · exact List.mem_append_right _ ended

theorem read_keyworded {keyword : String} (complete : Keyword.isComplete keyword = true)
    (o : Option Expr) :
    Mark.read (keywordedMarks d keyword o) = optional keyword (Expr.tokens d) o := by
  cases o <;> simp [keywordedMarks, optional, Mark.tokens_keyword complete, Expr.tokens,
    keywordToken]

theorem read_values {keyword : String} (complete : Keyword.isComplete keyword = true)
    (o : Option (List Expr)) : Mark.read (valuesMarks d keyword o) =
      optional keyword (fun es => commaTokens (es.map (Expr.tokens d))) o := by
  cases o <;> simp [valuesMarks, optional, Mark.tokens_keyword complete, read_exprs, keywordToken]

/-- A clause that is a value after its keyword. -/
theorem keyworded_gives {keyword : String} {o : Option Expr}
    (h : ∀ e ∈ o, level.ReadsValue d e) (breaks : Breaks rest)
    (ended : Lacks (fun t => t.isCommand keyword) rest) :
    (after (eatKeyword keyword) (level.expr 0)).Gives
      (optional keyword (Expr.tokens d) o ++ rest) o rest :=
  Gives.optional (fun e mem => (h e mem).whole (breaks.closed 0)) ended

/-- No word of a row count is left to read. -/
theorem eatRows_none (follow : HeadIn (laterTokens 6) rest) : eatRows.Gives rest false rest := by
  have plain : ∀ t ∈ laterTokens 6, t.isWord "rows" = false ∧ t.isWord "row" = false := by
    decide
  refine Gives.no (Gives.eat_false (follow.lacks fun t mem => (plain t mem).1)) ?_
  exact Gives.eat_false (follow.lacks fun t mem => (plain t mem).2)

theorem offset_optional {o : Option Expr} (h : ∀ e ∈ o, level.ReadsValue d e)
    (follow : HeadIn (laterTokens 8) rest) :
    (offset level).Gives (optional "offset" (Expr.tokens d) o ++ rest) o rest := by
  have later : HeadIn (laterTokens 6) rest := follow.mono (by decide)
  refine Gives.optional (fun e mem => ?_) (follow.lacks (by decide))
  refine ((h e mem).whole ((follow.breaks (breaks_later 8)).closed 0)).bind ?_
  exact (eatRows_none later).bind (Gives.ret _ _)

/-- A limit has a part at least. -/
theorem limit_gives {o : Option Limit}
    (some : ∀ l ∈ o, l.limit.isSome ∨ l.offset.isSome)
    (limits : ∀ l ∈ o, ∀ e ∈ l.limit, level.ReadsValue d e)
    (offsets : ∀ l ∈ o, ∀ e ∈ l.offset, level.ReadsValue d e)
    (follow : HeadIn (laterTokens 8) rest) :
    (limit level).Gives (Mark.read (limitMarks d o) ++ rest) o rest := by
  have noLimit : Lacks (fun t => t.isCommand "limit") rest := follow.lacks (by decide)
  cases o with
  | none =>
    refine Gives.no (Gives.eat_false noLimit) ?_
    have offsetReads : (offset level).Gives rest none rest :=
      offset_optional (d := d) (o := none) (by simp) follow
    exact offsetReads.bind (Gives.ret _ _)
  | some l =>
    obtain ⟨first, second⟩ := l
    have tokens : Mark.read (limitMarks d (Option.some ⟨first, second⟩)) ++ rest =
        optional "limit" (Expr.tokens d) first ++
          (optional "offset" (Expr.tokens d) second ++ rest) := by
      have limit : Keyword.isComplete "limit" = true := by decide
      have offset : Keyword.isComplete "offset" = true := by decide
      simp [limitMarks, Limit.marks, read_keyworded limit, read_keyworded offset]
    have offsetReads := offset_optional (offsets _ rfl) follow
    have breaks : Breaks (optional "offset" (Expr.tokens d) second ++ rest) := by
      have head : HeadIn (laterTokens 7) (optional "offset" (Expr.tokens d) second ++ rest) :=
        follow.optional "offset" (Expr.tokens d) second
      exact head.breaks (breaks_later 7)
    rw [tokens]
    cases first with
    | some e =>
      refine Gives.yes (Gives.eat_true (t := keywordToken "limit") (by decide)) ?_
      exact ((limits _ rfl e rfl).whole (breaks.closed 0)).bind (offsetReads.bind (Gives.ret _ _))
    | none =>
      cases second with
      | none => simpa using some _ rfl
      | some e =>
        refine Gives.no (Gives.eat_false (lacks_head (by decide))) (offsetReads.bind ?_)
        exact (Gives.after_none (Gives.eat_false noLimit)).bind (Gives.ret _ _)

/-- What a fetch reads as its count. -/
structure FetchReads (d : Dialect) (level : Level) (f : Fetch) : Prop where
  value : ∀ e ∈ f.count, level.ReadsValue d e
  begins : ∀ e ∈ f.count, e.Begins d
  fits : f.Fits

theorem fetchPosition_tokens (position : FetchPosition) :
    (Mark.plain position.text).tokens = [wordToken position.text] ∧
      fetchPosition? (wordToken position.text) = some position := by
  cases position <;> decide

def unitTokens : FetchUnit → List Token
  | .rowsOnly => ["rows", "only"].map wordToken
  | .percent => ["percent", "rows", "only"].map wordToken
  | .withTies => [wordToken "rows", keywordToken "with", wordToken "ties"]

theorem read_unit (unit : FetchUnit) : Mark.read (writeWords unit.words) = unitTokens unit := by
  cases unit <;> decide

theorem tokens_fetch (f : Fetch) : Mark.read (f.marks d) = keywordToken "fetch" ::
    wordToken f.position.text :: (optionTokens d f.count ++ unitTokens f.unit) := by
  obtain ⟨position, count, unit⟩ := f
  have keyword : (Mark.plain "fetch").tokens = [keywordToken "fetch"] := by decide
  cases count <;>
    simp [Fetch.marks, keyword, (fetchPosition_tokens position).1, read_unit, optionTokens,
      Expr.tokens]

theorem fetchUnit_gives (unit : FetchUnit) (rest : List Token) : ∃ percent mid last,
    (eatWord "percent").Gives (unitTokens unit ++ rest) percent mid ∧
      requireRows.Gives mid () last ∧ (fetchUnit percent).Gives last unit rest := by
  cases unit <;> exact ⟨_, _, _, rfl, rfl, rfl⟩

/-- A count does not begin like a unit without one. -/
theorem lacks_rows {e : Expr} {ts : List Token} (begins : e.Begins d)
    (avoids : e.Avoids ["row", "rows"]) :
    Lacks (fun t => t.isWord "row" || t.isWord "rows") (e.tokens d ++ ts) := by
  obtain ⟨t, more, tokens, begin⟩ := begins
  have apart : ∀ word ∈ ["row", "rows"], ∀ keyword ∈ Token.valueKeywords,
      Text.sameIgnoringCase keyword word = false := by decide
  have row : t.isWord "row" = false := begin.not_word avoids (by decide) (apart _ (by decide))
  have rows : t.isWord "rows" = false := begin.not_word avoids (by decide) (apart _ (by decide))
  rw [tokens]
  exact lacks_head (by simp [row, rows])

theorem fetchCount_gives {f : Fetch} (h : FetchReads d level f) (rest : List Token) :
    (fetchCount level).Gives (optionTokens d f.count ++ (unitTokens f.unit ++ rest)) f.count
      (unitTokens f.unit ++ rest) := by
  obtain ⟨position, count, unit⟩ := f
  cases count with
  | none =>
    have other : unit ≠ .percent := fun same => by simpa using h.fits.2 same
    refine Gives.yes ?_ (Gives.ret none (unitTokens unit ++ rest))
    cases unit with
    | percent => exact absurd rfl other
    | _ => exact Gives.look_true (by decide)
  | some e =>
    have closed : Closed 0 (unitTokens unit ++ rest) := by
      cases unit <;> exact closed_word _ 0 _ (by decide)
    refine Gives.no (Gives.look_false (lacks_rows (h.begins e rfl) (h.fits.1 e rfl).2)) ?_
    exact ((h.value e rfl).whole closed).map some

theorem fetch_gives {f : Fetch} (h : FetchReads d level f) : (fetch level).Gives
    (wordToken f.position.text :: (optionTokens d f.count ++ unitTokens f.unit) ++ rest) f
      rest := by
  have countReads := fetchCount_gives h rest
  obtain ⟨position, count, unit⟩ := f
  obtain ⟨percent, mid, last, percentReads, rowsRead, unitReads⟩ := fetchUnit_gives unit rest
  simp only [List.cons_append, List.append_assoc]
  refine (Gives.expect (fetchPosition_tokens position).2).bind ?_
  refine countReads.bind (percentReads.bind (rowsRead.bind ?_))
  exact unitReads.bind (Gives.ret _ _)

def modeTokens (mode : LockMode) : List Token := mode.words.map wordToken

theorem read_lock (o : Option LockMode) :
    Mark.read (lockMarks o) = optional "for" modeTokens o := by
  match o with
  | none => rfl
  | some mode => cases mode <;> decide

theorem lock_gives (mode : LockMode) : lock.Gives (modeTokens mode ++ rest) mode rest := by
  cases mode <;> rfl

end SqlQuery.Grammar
