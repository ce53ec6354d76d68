import SqlQuery.Proofs.Reading.Expression

/-!
Order items, window definitions and their frames are read back.
-/

namespace SqlQuery

def endTokens : List Token := [closeToken, semicolon]

def frameTokens : List Token := ["rows", "range", "groups"].map wordToken

def setTokens : List Token := Grammar.setOperators.map keywordToken

/-- What may follow an order item. -/
def itemTokens : List Token :=
  commaToken :: endTokens ++ frameTokens ++ setTokens ++
    ["limit", "offset", "fetch", "for"].map keywordToken

namespace Grammar

open Rule

variable {d : Dialect} {scope : Scope} {level : Level} {rest : List Token}

/-- What may follow the direction of an order item. -/
def nullsTokens : List Token := ["nulls first", "nulls last"].map keywordToken

theorem nullsPosition_gives (nulls : Option NullsPosition) (follow : HeadIn itemTokens rest) :
    nullsPosition.Gives ((NullsPosition.marks nulls).flatMap Mark.read ++ rest) nulls rest := by
  cases nulls with
  | none =>
    refine Gives.no (Gives.eat_false (follow.lacks (by decide))) ?_
    exact Gives.no (Gives.eat_false (follow.lacks (by decide))) (Gives.ret _ _)
  | some nulls =>
    cases nulls with
    | first => exact Gives.yes (Gives.eat_true (by decide)) (Gives.ret _ _)
    | last =>
      have other : HeadIn nullsTokens (keywordToken "nulls last" :: rest) :=
        .cons (by decide) rest
      refine Gives.no (Gives.eat_false ?_) (Gives.yes (Gives.eat_true (by decide)) (Gives.ret _ _))
      intro t head
      cases head
      decide

theorem head_nulls (nulls : Option NullsPosition) (follow : HeadIn itemTokens rest) :
    HeadIn (nullsTokens ++ itemTokens) ((NullsPosition.marks nulls).flatMap Mark.read ++ rest) := by
  cases nulls with
  | none => exact follow.mono fun t mem => List.mem_append_right _ mem
  | some nulls => cases nulls <;> exact HeadIn.cons (by decide) rest

theorem direction_gives (order : SortDirection) (follow : HeadIn (nullsTokens ++ itemTokens) rest) :
    direction.Gives (order.marks.flatMap Mark.read ++ rest) order rest := by
  cases order with
  | asc =>
    refine Gives.no (Gives.eat_false (follow.lacks (by decide))) ?_
    exact (Gives.eat_false (follow.lacks (by decide))).bind (Gives.ret _ _)
  | desc => exact Gives.yes (Gives.eat_true (by decide)) (Gives.ret _ _)

theorem head_direction (order : SortDirection) (follow : HeadIn (nullsTokens ++ itemTokens) rest) :
    HeadIn (keywordToken "desc" :: nullsTokens ++ itemTokens)
      (order.marks.flatMap Mark.read ++ rest) := by
  cases order with
  | asc => exact follow.mono fun t mem => List.mem_cons_of_mem _ mem
  | desc => exact HeadIn.cons (by decide) rest

theorem orderItem_gives {i : OrderItem} (value : level.ReadsValue d i.value)
    (follow : HeadIn itemTokens rest) :
    (orderItem level).Gives (Mark.read (i.marks d) ++ rest) i rest := by
  obtain ⟨e, order, nulls⟩ := i
  have tokens : Mark.read (OrderItem.marks d ⟨e, order, nulls⟩) ++ rest = e.tokens d ++
      (order.marks.flatMap Mark.read ++ ((NullsPosition.marks nulls).flatMap Mark.read ++ rest)) := by
    simp [OrderItem.marks, Expr.tokens]
  have nullsHead := head_nulls nulls follow
  rw [tokens]
  refine (value.whole ((head_direction order nullsHead).closed 0 (by decide))).bind ?_
  refine (direction_gives order nullsHead).bind ?_
  exact (nullsPosition_gives nulls follow).bind (Gives.ret _ _)

theorem orderBy_gives {order : Option (List OrderItem)} (some : order ≠ some [])
    (values : ∀ items ∈ order, ∀ i ∈ items, level.ReadsValue d i.value)
    (follow : HeadIn (itemTokens.tail) rest) :
    (orderBy level).Gives (Mark.read (orderMarks d order) ++ rest) order rest := by
  have items : HeadIn itemTokens rest := follow.mono fun t mem => List.mem_of_mem_tail mem
  cases order with
  | none => exact Gives.after_none (Gives.eat_false (items.lacks (by decide)))
  | some is =>
    have tokens : Mark.read (orderMarks d (Option.some is)) ++ rest = keywordToken "order by" ::
        (commaTokens (is.map fun i => Mark.read (i.marks d)) ++ rest) := by
      have keyword : (Mark.plain "order by").tokens = [keywordToken "order by"] := by decide
      simp [orderMarks, orderItemsMarks_eq, keyword, Function.comp_def]
    rw [tokens]
    refine Gives.after_some (Gives.eat_true (by decide)) ?_
    refine Gives.commaList _ (by simpa using some) (fun i mem rest follow =>
      orderItem_gives (values is rfl i mem) follow) (fun rest => .cons (by decide) rest) items ?_
    exact follow.lacks (by decide)

/-- What the bound reads as its offset. -/
structure BoundReads (d : Dialect) (level : Level) (b : Bound) : Prop where
  value : ∀ e ∈ b.offset?, level.ReadsValue d e
  begins : ∀ e ∈ b.offset?, e.Begins d
  fits : b.Fits

theorem closed_word (word : String) (bound : Nat) (rest : List Token)
    (plain : ∀ other ∈ Token.typeWords, (wordToken word).isWord other = false) :
    Closed bound (wordToken word :: rest) := by
  refine Closed.of_end ?_ rfl
  simpa [Token.extendsValue, wordToken] using plain

/-- An offset does not begin like a bound without one. -/
theorem lacks_opening {e : Expr} {ts : List Token} (begins : e.Begins d)
    (avoids : e.Avoids Bound.openings) {word : String} (mem : word ∈ Bound.openings) :
    Lacks (fun t => t.isWord word) (e.tokens d ++ ts) := by
  obtain ⟨t, more, tokens, begin⟩ := begins
  rw [tokens]
  intro u head
  obtain rfl : t = u := by simpa using head
  refine begin.not_word avoids mem ?_
  have apart : ∀ word ∈ Bound.openings, ∀ keyword ∈ Token.valueKeywords,
      Text.sameIgnoringCase keyword word = false := by decide
  exact apart word mem

theorem offset_gives {e : Expr} {b : Bound} {word : String} (value : level.ReadsValue d e)
    (begins : e.Begins d) (avoids : e.Avoids Bound.openings)
    (plain : ∀ other ∈ Token.typeWords, (wordToken word).isWord other = false)
    (h : Gives (do
      if ← eatWord "preceding" then return Bound.preceding e
      Rule.word "following"
      return .following e) (wordToken word :: rest) b rest) :
    (bound level).Gives (e.tokens d ++ (wordToken word :: rest)) b rest := by
  refine Gives.no (Gives.eat_false (lacks_opening begins avoids (by decide))) ?_
  refine Gives.no (Gives.eat_false (lacks_opening begins avoids (by decide))) ?_
  exact (value.whole (closed_word word 0 rest plain)).bind h

theorem lacks_head {p : Token → Bool} {t : Token} {ts : List Token} (h : p t = false) :
    Lacks p (t :: ts) := by
  intro u head
  obtain rfl : t = u := by simpa using head
  exact h

theorem tokens_preceding (e : Expr) :
    Mark.read ((Bound.preceding e).marks d) = e.tokens d ++ [wordToken "preceding"] := by
  have word : (Mark.plain "preceding").tokens = [wordToken "preceding"] := by decide
  simp [Bound.marks, word, Expr.tokens]

theorem tokens_following (e : Expr) :
    Mark.read ((Bound.following e).marks d) = e.tokens d ++ [wordToken "following"] := by
  have word : (Mark.plain "following").tokens = [wordToken "following"] := by decide
  simp [Bound.marks, word, Expr.tokens]

theorem bound_gives {b : Bound} (h : BoundReads d level b) :
    (bound level).Gives (Mark.read (b.marks d) ++ rest) b rest := by
  cases b with
  | unboundedPreceding =>
    refine Gives.yes (Gives.eat_true (t := wordToken "unbounded") (by decide)) ?_
    exact Gives.yes (Gives.eat_true (t := wordToken "preceding") (by decide)) (Gives.ret _ _)
  | unboundedFollowing =>
    refine Gives.yes (Gives.eat_true (t := wordToken "unbounded") (by decide)) ?_
    refine Gives.no (Gives.eat_false (lacks_head (by decide))) ?_
    exact (Gives.require (t := wordToken "following") (by decide)).bind (Gives.ret _ _)
  | currentRow =>
    refine Gives.no (Gives.eat_false (lacks_head (t := wordToken "current") (by decide))) ?_
    refine Gives.yes (Gives.eat_true (by decide)) ?_
    exact (Gives.require (t := wordToken "row") (by decide)).bind (Gives.ret _ _)
  | preceding e =>
    rw [tokens_preceding, List.append_assoc]
    refine offset_gives (h.value e rfl) (h.begins e rfl) (h.fits e rfl).2 (by decide) ?_
    exact Gives.yes (Gives.eat_true (by decide)) (Gives.ret _ _)
  | following e =>
    rw [tokens_following, List.append_assoc]
    refine offset_gives (h.value e rfl) (h.begins e rfl) (h.fits e rfl).2 (by decide) ?_
    refine Gives.no (Gives.eat_false (lacks_head (by decide))) ?_
    exact (Gives.require (by decide)).bind (Gives.ret _ _)

/-- A bound does not begin with `between`. -/
theorem bound_lacks {b : Bound} (h : BoundReads d level b) {ts : List Token} :
    Lacks (fun t => t.isCommand "between") (Mark.read (b.marks d) ++ ts) := by
  have plain (t : Token) (opens : t.opensValue = true) : t.isCommand "between" = false :=
    Token.not_command_of_opensValue opens (by decide)
  cases b with
  | preceding e =>
    rw [tokens_preceding, List.append_assoc]
    exact lacks_of_begins (h.begins e rfl) plain
  | following e =>
    rw [tokens_following, List.append_assoc]
    exact lacks_of_begins (h.begins e rfl) plain
  | _ => exact lacks_head (by decide)

theorem frameUnit_tokens (unit : FrameUnit) : (Mark.plain unit.text).tokens = [wordToken unit.text] ∧
    frameUnit? (wordToken unit.text) = some unit := by
  cases unit <;> decide

theorem frame_gives {f : Frame} (start : BoundReads d level f.start)
    (stop : ∀ b ∈ f.stop, BoundReads d level b) :
    (frame level).Gives (Mark.read (f.marks d) ++ rest) (some f) rest := by
  obtain ⟨unit, first, last⟩ := f
  obtain ⟨word, found⟩ := frameUnit_tokens unit
  cases last with
  | none =>
    have tokens : Mark.read (Frame.marks d ⟨unit, first, none⟩) ++ rest =
        wordToken unit.text :: (Mark.read (first.marks d) ++ rest) := by
      simp [Frame.marks, word]
    rw [tokens]
    refine (Gives.accept_some found).bind ?_
    refine Gives.no (Gives.eat_false (bound_lacks start)) ?_
    exact (bound_gives start).bind (Gives.ret _ _)
  | some last =>
    have between : (Mark.plain "between").tokens = [keywordToken "between"] := by decide
    have and : (Mark.plain "and").tokens = [keywordToken "and"] := by decide
    have tokens : Mark.read (Frame.marks d ⟨unit, first, some last⟩) ++ rest =
        wordToken unit.text :: keywordToken "between" :: (Mark.read (first.marks d) ++
          (keywordToken "and" :: (Mark.read (last.marks d) ++ rest))) := by
      simp [Frame.marks, word, between, and]
    rw [tokens]
    refine (Gives.accept_some found).bind ?_
    refine Gives.yes (Gives.eat_true (by decide)) ((bound_gives start).bind ?_)
    refine (Gives.require (by decide)).bind ((bound_gives (stop last rfl)).bind ?_)
    exact Gives.ret _ _

theorem frame_none (follow : HeadIn [closeToken] rest) : (frame level).Gives rest none rest := by
  refine (Gives.accept_none fun t head => ?_).bind (Gives.ret _ _)
  obtain rfl : t = closeToken := by simpa using follow t head
  rfl

/-- What a window definition reads as its values. -/
structure SpecReads (d : Dialect) (level : Level) (w : WindowSpec) : Prop where
  partition : ∀ es ∈ w.partition, ∀ e ∈ es, level.ReadsValue d e
  order : ∀ items ∈ w.order, ∀ i ∈ items, level.ReadsValue d i.value
  start : ∀ f ∈ w.frame, BoundReads d level f.start
  stop : ∀ f ∈ w.frame, ∀ b ∈ f.stop, BoundReads d level b
  fits : w.Fits

theorem tokens_spec (w : WindowSpec) : Mark.read (w.marks d) =
    Mark.read (valuesMarks d "partition by" w.partition) ++
      (Mark.read (orderMarks d w.order) ++ Mark.read (frameMarks d w.frame)) := by
  obtain ⟨partition, order, frame⟩ := w
  simp [WindowSpec.marks]

theorem head_frame (f : Option Frame) :
    HeadIn (closeToken :: frameTokens) (Mark.read (frameMarks d f) ++ closeToken :: rest) := by
  cases f with
  | none => exact .cons (by decide) rest
  | some f =>
    obtain ⟨unit, first, last⟩ := f
    have head (ts : List Token) :
        HeadIn (closeToken :: frameTokens) ((Mark.plain unit.text).tokens ++ ts) := by
      rw [(frameUnit_tokens unit).1]
      exact .cons (by cases unit <;> decide) ts
    cases last <;> simpa [frameMarks, Frame.marks] using head _

theorem head_order {next : List Token} (order : Option (List OrderItem))
    (follow : HeadIn next rest) :
    HeadIn (keywordToken "order by" :: next) (Mark.read (orderMarks d order) ++ rest) := by
  cases order with
  | none => exact follow.mono fun t mem => List.mem_cons_of_mem _ mem
  | some items =>
    have keyword : (Mark.plain "order by").tokens = [keywordToken "order by"] := by decide
    simpa [orderMarks, keyword] using HeadIn.cons (List.mem_cons_self) _

theorem partition_gives {partition : Option (List Expr)}
    (fits : ∀ es ∈ partition, AreValues es) (h : ∀ es ∈ partition, ∀ e ∈ es, level.ReadsValue d e)
    (follow : HeadIn (keywordToken "order by" :: closeToken :: frameTokens) rest) :
    (after (eatKeyword "partition by") (values level)).Gives
      (Mark.read (valuesMarks d "partition by" partition) ++ rest) partition rest := by
  cases partition with
  | none => exact Gives.after_none (Gives.eat_false (follow.lacks (by decide)))
  | some es =>
    have keyword : (Mark.plain "partition by").tokens = [keywordToken "partition by"] := by decide
    have tokens : Mark.read (valuesMarks d "partition by" (some es)) ++ rest =
        keywordToken "partition by" :: (commaTokens (es.map (Expr.tokens d)) ++ rest) := by
      simp [valuesMarks, keyword, read_exprs]
    rw [tokens]
    refine Gives.after_some (Gives.eat_true (by decide)) ?_
    exact values_give (fits es rfl).1 (h es rfl) (follow.closed 0 (by decide))
      (follow.lacks (by decide))

theorem windowSpec_gives {w : WindowSpec} (h : SpecReads d level w) :
    (windowSpec level).Gives (Mark.read (w.marks d) ++ closeToken :: rest) w
      (closeToken :: rest) := by
  rw [tokens_spec, List.append_assoc, List.append_assoc]
  obtain ⟨partition, order, frame⟩ := w
  have frameHead : HeadIn (closeToken :: frameTokens)
      (Mark.read (frameMarks d frame) ++ closeToken :: rest) := head_frame frame
  have partitionReads := partition_gives h.fits.1 h.partition (head_order (d := d) order frameHead)
  have orderReads := orderBy_gives (d := d) h.fits.2 h.order
    (frameHead.mono (by decide))
  have frameReads : (SqlQuery.Grammar.frame level).Gives
      (Mark.read (frameMarks d frame) ++ closeToken :: rest) frame (closeToken :: rest) := by
    cases frame with
    | none => exact frame_none (.cons (by decide) rest)
    | some f => exact frame_gives (h.start f rfl) (h.stop f rfl)
  exact partitionReads.bind (orderReads.bind (frameReads.bind (Gives.ret _ _)))

/-- What stands after `over`. -/
structure OverReads (d : Dialect) (scope : Scope) (o : Over) : Prop where
  name : ∀ name, o = .named name → IsName name
  spec : ∀ spec, o = .window spec → ∃ level, scope.inside = some level ∧ SpecReads d level spec

theorem over_gives {o : Over} (h : OverReads d scope o) :
    (after (eatKeyword "over") (windowRef scope)).Gives (Mark.read (o.marks d) ++ rest) (some o)
      rest := by
  have keyword : (Mark.plain "over").tokens = [keywordToken "over"] := by decide
  cases o with
  | named text =>
    have named : isName (wordToken text) = true := by
      simpa [isName, wordToken, IsName, wildcardName] using h.name text rfl
    have tokens : Mark.read ((Over.named text).marks d) ++ rest =
        keywordToken "over" :: wordToken text :: rest := by
      simp [Over.marks, keyword]
    rw [tokens]
    refine Gives.after_some (Gives.eat_true (by decide)) ?_
    refine Gives.yes (Gives.look_true rfl) ?_
    exact Gives.map _ (Gives.expect (by rw [if_pos named]; rfl))
  | window spec =>
    obtain ⟨level, inside, reads⟩ := h.spec spec rfl
    have tokens : Mark.read ((Over.window spec).marks d) ++ rest =
        keywordToken "over" :: openToken :: (Mark.read (spec.marks d) ++ closeToken :: rest) := by
      simp [Over.marks, keyword]
    rw [tokens]
    refine Gives.after_some (Gives.eat_true (by decide)) ?_
    refine Gives.no (Gives.look_false (lacks_head rfl)) ?_
    refine (Gives.require (t := openToken) rfl).bind (Gives.map _ (Gives.enter inside ?_))
    exact (windowSpec_gives reads).bind ((Gives.require rfl).bind (Gives.ret _ _))

end Grammar

end SqlQuery
