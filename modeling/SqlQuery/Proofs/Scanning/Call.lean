import SqlQuery.Proofs.Scanning.Operator
import SqlQuery.Proofs.Tree.Below

/-!
Calls and windows stand where the values in them do.
-/

namespace SqlQuery

open Mark Node Child

/-- What is known where a node is written: the values and queries below it stand where they may, and
every node below is of the shape that the grammar gives and legible. -/
structure Node.PartsPlaced (d : Dialect) (n : Node) : Prop where
  value : ∀ e, n.Below (.expr e) → e.isValue → e.Placed d
  query : ∀ q, n.Below (.query q) → Everywhere d (q.marks d)
  fits : ∀ m, n.Below m → m.Fits
  legible : ∀ m, n.Below m → m.Legible d

variable {d : Dialect} [d.Readable] {previous : Option Token} {cs : List Char}

/-- After this keyword every value may follow. -/
def leadsValues (keyword : String) : Bool :=
  Keyword.isComplete keyword && !Keyword.isExtendable keyword &&
    !(keywordToken keyword).isCommand "array" && (keywordToken keyword).expectsOperand

omit [d.Readable] in
theorem leadsValues_of {keyword : String} (h : Keyword.isComplete keyword = true ∧
    keyword ∉ Keyword.beginnings ∧ (keywordToken keyword).isCommand "array" = false ∧
      (keywordToken keyword).expectsOperand = true) : leadsValues keyword = true := by
  simp [leadsValues, h.1, Keyword.not_extendable h.2.1, h.2.2.1, h.2.2.2]

section

variable {keyword : String} (leads : leadsValues keyword = true)

include leads

omit [d.Readable] in
theorem leadsValues.word :
    Keyword.isComplete keyword = true ∧ Keyword.isExtendable keyword = false := by
  simp only [leadsValues, Bool.and_eq_true, Bool.not_eq_true'] at leads
  exact leads.1.1

omit [d.Readable] in
theorem leadsValues.follows {e : Expr} (sign : e.leadsLooseSign = false) :
    e.Follows (some (keywordToken keyword)) := by
  simp only [leadsValues, Bool.and_eq_true, Bool.not_eq_true'] at leads
  exact Expr.follows_of_operand sign leads.1.2 leads.2 fun _ => leads.2

/-- A keyword with a value after it. -/
theorem Everywhere.value {e : Expr} (h : e.Seated d) :
    Everywhere d (.plain keyword :: .blank :: e.marks d) :=
  .keyword_then (leadsValues.word leads).1 (leadsValues.word leads).2
    (h.settles _ (leadsValues.follows leads h.sign))

/-- A keyword with values after it. -/
theorem Everywhere.values {es : List Expr} (each : ∀ e ∈ es, e.Seated d) :
    Everywhere d (valuesMarks d keyword (some es)) := by
  rw [valuesMarks, spaced_cons_cons, spaced_singleton]
  exact .keyword_then (leadsValues.word leads).1 (leadsValues.word leads).2
    (Expr.values_settle each fun e head =>
      leadsValues.follows leads (each e (List.mem_of_mem_head? head)).sign)

end

namespace Node.PartsPlaced

variable {n : Node} (h : n.PartsPlaced d)

include h

omit [d.Readable] in
/-- A value in a node below that expects an operand in its place. -/
theorem seated {m : Node} {e : Expr} (inside : n.Below m) (awaited : e ∈ m.awaited)
    (isValue : e.isValue) : e.Seated d :=
  have below : n.Below (.expr e) :=
    below_of_mem_walk (mem_walk.2 (.inr inside)) (awaited_below awaited)
  ⟨h.value e below isValue, (h.legible m inside).signs e awaited⟩

omit [d.Readable] in
/-- The values in a node below that has nothing else. -/
theorem values {m : Node} {es : List Expr} (inside : n.Below m) (awaited : m.awaited = es)
    (areValues : ∀ e ∈ es, e.isValue) : ∀ e ∈ es, e.Seated d :=
  fun e mem => h.seated inside (awaited ▸ mem) (areValues e mem)

omit [d.Readable] in
/-- The values of a list. -/
theorem list {es : List Expr} (below : n.Below (.expr (.list es))) (areValues : ∀ e ∈ es, e.isValue) :
    ∀ e ∈ es, e.Seated d :=
  h.values below (values_each _ es) areValues

omit [d.Readable] in
/-- The query in the place of a value. -/
theorem nested {q : Query} (below : n.Below (.expr (.inlineQuery q))) : Everywhere d (q.marks d) := by
  have children := below.children
  simp only [Node.children, Expr.children, List.forall_mem_cons, List.not_mem_nil, false_implies,
    implies_true, and_true] at children
  exact h.query q children

theorem typeRef {ref : TypeRef} (below : n.Below (.expr (.type ref))) : ref.Placed d := by
  obtain ⟨name, argument⟩ := h.fits _ below
  refine TypeRef.placed name (h.legible _ below).alone fun a mem => ?_
  obtain ⟨es, rfl, some, areValues⟩ := argument a mem
  have children := below.children
  simp only [Node.children, Expr.children, TypeRef.children, List.forall_mem_cons, forall_maybe]
    at children
  rw [Expr.marks]
  exact Expr.opened_settle (h.list (children.2 _ mem) areValues)

theorem orderItem {i : OrderItem} (below : n.Below (.orderItem i))
    (follows : i.value.leadsLooseSign = false → i.value.Follows previous) :
    Settles d previous (i.marks d) := by
  have seated := h.seated below List.mem_cons_self (h.fits _ below)
  have value := seated.settles previous (follows seated.sign)
  obtain ⟨value', direction, nulls⟩ := i
  rw [OrderItem.marks, List.append_assoc, List.singleton_append]
  refine .spaced value fun part mem => ?_
  rcases List.mem_append.1 mem with inDirection | inNulls
  · cases direction with
    | asc => cases inDirection
    | desc =>
      obtain rfl := List.mem_singleton.1 inDirection
      exact .keyword (by decide) (Keyword.not_extendable (by decide))
  · rcases nulls with _ | _ | _
    · cases inNulls
    all_goals
      obtain rfl := List.mem_singleton.1 inNulls
      exact .keyword (by decide) (Keyword.not_extendable (by decide))

theorem orderBy {items : List OrderItem} (below : n.Below (.orderBy items)) :
    Everywhere d (orderMarks d (some items)) := by
  have children := below.children
  simp only [Node.children, forall_each] at children
  have complete : leadsValues "order by" = true := leadsValues_of (by decide)
  rw [orderMarks, spaced_cons_cons, spaced_singleton, orderItemsMarks_eq]
  refine .keyword_then (leadsValues.word complete).1 (leadsValues.word complete).2 ?_
  refine .commas _ (fun part head => ?_) fun part mem => ?_
  · rw [List.head?_map] at head
    obtain ⟨i, first, rfl⟩ := Option.map_eq_some_iff.1 head
    exact h.orderItem (children i (List.mem_of_mem_head? first)) (leadsValues.follows complete)
  · rw [← List.map_tail] at mem
    obtain ⟨i, inside, rfl⟩ := List.mem_map.1 mem
    exact h.orderItem (children i (List.mem_of_mem_tail inside))
      fun sign => Expr.follows_of_operand sign rfl rfl fun _ => rfl

theorem bound {b : Bound} (fits : b.Fits) (below : ∀ e ∈ b.offset?, n.Below (.expr e))
    (follows : ∀ e ∈ b.offset?, e.Follows previous) : Settles d previous (b.marks d) := by
  have offset (e : Expr) (mem : e ∈ b.offset?) : Settles d previous (e.marks d) :=
    (h.value e (below e mem) (fits e mem).1).settles previous (follows e mem)
  have word (text : String) (mem : text ∈ contextWords) : Everywhere d [.plain text] := .word mem
  cases b with
  | preceding e =>
    rw [Bound.marks]
    exact .spaced (offset e rfl) (by simpa using word "preceding" (by decide))
  | following e =>
    rw [Bound.marks]
    exact .spaced (offset e rfl) (by simpa using word "following" (by decide))
  | unboundedPreceding =>
    rw [Bound.marks]
    exact Everywhere.words (by simpa using ⟨word _ (by decide), word _ (by decide)⟩) previous
  | unboundedFollowing =>
    rw [Bound.marks]
    exact Everywhere.words (by simpa using ⟨word _ (by decide), word _ (by decide)⟩) previous
  | currentRow =>
    rw [Bound.marks]
    exact Everywhere.words (by simpa using ⟨word _ (by decide), word _ (by decide)⟩) previous

/-- A word of a frame is an ordinary name to a sign after it. -/
theorem frame {f : Frame} (below : n.Below (.frame f)) : Everywhere d (f.marks d) := by
  obtain ⟨startFits, stopFits⟩ := h.fits _ below
  have legible : f.stop = none → ∀ e ∈ f.start.offset?, e.IsSettled := (h.legible _ below).alone
  have signs := (h.legible _ below).signs
  have children := below.children
  simp only [Node.children, List.forall_mem_append, forall_maybe] at children
  obtain ⟨unit, start, stop⟩ := f
  have read : unit.text ∈ contextWords ∧
      (Mark.plain unit.text).tokens = [wordToken unit.text] := by cases unit <;> decide
  have word : Everywhere d [.plain unit.text] := .word read.1
  intro previous
  cases stop with
  | none =>
    have follows : ∀ e ∈ start.offset?, e.Follows (some (wordToken unit.text)) :=
      fun e mem => (legible rfl e mem).follows (.of_ne rfl) fun _ => rfl
    rw [Frame.marks, spaced_cons_cons, spaced_singleton]
    refine (word previous).then_blank ?_
    rw [lastRead_of_tokens read.2]
    exact h.bound startFits children.1 follows
  | some stop =>
    have between : leadsValues "between" = true := leadsValues_of (by decide)
    have and : leadsValues "and" = true := leadsValues_of (by decide)
    have stopBelow : ∀ e ∈ stop.offset?, n.Below (.expr e) :=
      fun e mem => children.2 e (Option.mem_bind_iff.2 ⟨stop, rfl, mem⟩)
    have awaited : Node.awaited (.frame ⟨unit, start, some stop⟩) =
        start.offset?.toList ++ stop.offset?.toList := by
      rw [← values_maybe "start", ← values_maybe "end", ← List.filterMap_append]
      rfl
    simp only [awaited, List.mem_append, Option.mem_toList] at signs
    have last : Everywhere d (.plain "and" :: .blank :: stop.marks d) :=
      .keyword_then (leadsValues.word and).1 (leadsValues.word and).2
        (h.bound (stopFits stop rfl) stopBelow
          fun e mem => leadsValues.follows and (signs e (.inr mem)))
    have bounds : Everywhere d
        (.plain "between" :: .blank :: (start.marks d ++ .blank :: .plain "and" :: .blank ::
          stop.marks d)) :=
      .keyword_then (leadsValues.word between).1 (leadsValues.word between).2
        ((h.bound startFits children.1 fun e mem =>
          leadsValues.follows between (signs e (.inl mem))).then_blank (last _))
    have marks : Frame.marks d ⟨unit, start, some stop⟩ = [Mark.plain unit.text] ++ .blank ::
        (.plain "between" :: .blank :: (start.marks d ++ .blank :: .plain "and" :: .blank ::
          stop.marks d)) := by
      simp [Frame.marks, spaced_cons_cons]
    rw [marks]
    exact (word previous).then_blank (bounds _)

theorem spec {w : WindowSpec} (below : n.Below (.windowSpec w)) : Everywhere d (w.marks d) := by
  have fits : w.Fits := h.fits _ below
  have children := below.children
  simp only [Node.children, List.forall_mem_append, forall_maybe] at children
  obtain ⟨⟨partition, order⟩, frame⟩ := children
  obtain ⟨values, items, f⟩ := w
  rw [WindowSpec.marks]
  refine .clauses ?_
  simp only [List.forall_mem_cons]
  refine ⟨.optional rfl fun es mem => ?_, .optional rfl fun items mem => h.orderBy (order items mem),
    .optional rfl fun f mem => h.frame (frame f mem), by simp⟩
  exact .values (leadsValues_of (by decide))
    (h.values (partition es mem) (values_each _ es) (fits.1 es mem).2)

theorem overClause {o : Over} (below : n.Below (.overClause o)) : Everywhere d (o.marks d) := by
  have complete : Keyword.isComplete "over" = true := by decide
  cases o with
  | named name =>
    rw [Over.marks, spaced_cons_cons, spaced_singleton]
    exact .keyword_then complete (Keyword.not_extendable (by decide))
      (.name (h.fits _ below) (.of_ne rfl))
  | window spec =>
    have children := below.children
    simp only [Node.children, Over.children, List.forall_mem_cons, List.not_mem_nil, false_implies,
      implies_true, and_true] at children
    rw [Over.marks]
    intro previous cs _
    exact .append (a := [.plain "over"]) (.keyword complete (.cons (by decide) _)
      (Lexeme.Name.longerKeyword?_single (by decide))) ((h.spec children _).parens cs)

end Node.PartsPlaced

end SqlQuery
