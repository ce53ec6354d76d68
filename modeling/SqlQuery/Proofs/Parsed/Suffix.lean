import SqlQuery.Proofs.Parsed.Value

/-!
Operators with what stands to their right. Each of them goes on with every operand whose own operators
it does not belong to, and so a chain of them is grouped as the powers say.
-/

namespace SqlQuery.Grammar

open Rule

variable {T : Token → Prop} {level : Level} {scope : Scope}

/-- The power of an operator does not depend on the kind of its token. -/
theorem infix?_of_binary? {t : Token} {power : Nat} (h : Power.binary? t = some power) :
    Power.infix? t.text = some power := by
  have apart : ∀ entry ∈ Power.symbols, Power.keywords.lookup entry.1 = none := by decide
  rw [Power.infix?, List.lookup_append]
  unfold Power.binary? at h
  split at h
  · rw [h, Option.some_or]
  · obtain ⟨before, after, split, _⟩ := List.lookup_eq_some_iff.1 h
    rw [apart (t.text, power) (by rw [split]; simp), h, Option.none_or]
  · cases h

theorem power_lt {operator : String} {power : Nat} (h : Power.infix? operator = some power) :
    power < Power.unbounded := by
  have known : ∀ entry ∈ Power.keywords ++ Power.symbols, entry.2 < Power.unbounded := by decide
  exact known _ (Power.infix?_mem h)

/-- No operator goes on with a closed value. -/
theorem closed_grown {e : Expr} (h : e.IsClosed T) (floor : Nat) (rest : List Token) :
    e.Grown T floor rest where
  toIsParsed := h.toIsParsed
  binds := h.binds floor
  spine := Nat.le_trans (Nat.min_le_right ..) h.spine
  stops := fun t _ power found => by
    rw [h.edge]
    exact power_lt (infix?_of_binary? found)

/-- On every operand that the operator does not belong into, the suffix gives a value that may go
on in the same way. -/
def Suffix.Extends (T : Token → Prop) (floor power : Nat) (s : Suffix) (rest : List Token) : Prop :=
  ∀ e : Expr, e.IsParsed T → power < e.edge → min floor Power.cast ≤ e.spine →
    (s.apply e).Grown T floor rest

theorem cast_extends {ref : TypeRef} {floor : Nat} {rest : List Token}
    (type : (Node.expr (.type ref)).AllParsed T) :
    (Suffix.cast ref).Extends T floor Power.cast rest := by
  intro e parsed _ spine
  have isParsed : (Expr.cast e ref).IsParsed T := by
    refine ⟨rfl, .of_children parsed.isValue ?_⟩
    simpa [Node.children, Expr.children] using ⟨parsed.all, type⟩
  refine closed_grown ⟨isParsed, fun _ => trivial, ?_, rfl⟩ floor rest
  exact Expr.cast_le_spine _ rfl

theorem between_extends {lower upper : Expr} {negated : Bool} {floor : Nat}
    {mid rest : List Token} {next : Token} (reaches : floor ≤ Power.between)
    (first : lower.ReadFrom T (Power.between + 1) (next :: mid)) (and : next.isCommand "and" = true)
    (second : upper.ReadFrom T (Power.between + 1) rest) :
    (Suffix.between negated lower upper).Extends T floor Power.between rest := by
  intro e parsed edge spine
  have andPower : Power.binary? next = some (Power.infixPower "and") := by
    simp only [Token.isCommand, Bool.and_eq_true, beq_iff_eq] at and
    simp only [Power.binary?, and.1, and.2]
    decide
  have tight : Power.between + 1 ≤ Power.cast := by decide
  have lowerSpine := first.spine
  have upperSpine := second.spine
  rw [Nat.min_eq_left tight] at lowerSpine upperSpine
  refine ⟨⟨rfl, .of_children ⟨⟨parsed.isValue, edge⟩, ⟨first.isValue, lowerSpine,
    first.stops next rfl _ andPower⟩, second.isValue, upperSpine⟩ ?_⟩, reaches, ?_, ?_⟩
  · simpa [Suffix.apply, Node.children, Expr.children] using ⟨parsed.all, first.all, second.all⟩
  · rw [Suffix.apply, Expr.spine]
    omega
  · intro t head power found
    rw [Suffix.apply, Expr.edge]
    have := second.ended t head power found
    have := second.stops t head power found
    omega

theorem binary_extends {operator : String} {right : Expr} {floor power : Nat} {rest : List Token}
    (known : Power.infix? operator = some power) (plain : operator ∉ Power.special)
    (reaches : floor ≤ power) (side : right.IsRightSide operator power)
    (all : (Node.expr right).AllParsed T)
    (stops : ∀ t ∈ rest.head?, ∀ next, Power.binary? t = some next →
      Power.isMembership operator && right.isTuple ∨ next < power + 1 ∧ next < right.edge) :
    (Suffix.binary operator right).Extends T floor power rest := by
  intro e parsed edge spine
  have own : Power.infixPower operator = power := by rw [Power.infixPower, known, Option.getD_some]
  have isValue : (Expr.binary e operator right).isValue = true := by
    have other : operator ≠ "from" := by
      rintro rfl
      rw [show Power.infix? "from" = none by decide] at known
      cases known
    simpa [Expr.isValue] using other
  refine ⟨⟨isValue, .of_children (.inr ⟨power, known, plain, parsed.isValue, edge, side⟩) ?_⟩,
    ⟨power, known, reaches⟩, ?_, ?_⟩
  · simpa [Suffix.apply, Node.children, Expr.children] using ⟨parsed.all, all⟩
  · rw [Suffix.apply, Expr.spine, own]
    omega
  · intro t head next found
    rw [Suffix.apply, Expr.edge]
    split
    · exact power_lt (infix?_of_binary? found)
    · rename_i single
      have := (stops t head next found).resolve_left single
      omega

/-- The operator that is read has a power which reaches the floor. -/
theorem operatorFrom_eq {floor : Nat} {t : Token} {operator : String} {right : Nat}
    (h : operatorFrom floor t = some (operator, right)) : ∃ power, Power.binary? t = some power ∧
      Power.infix? operator = some power ∧ floor ≤ power ∧ right = power + 1 := by
  unfold operatorFrom at h
  split at h
  · cases h
  · rename_i power found
    split at h
    · cases h
    · rename_i reaches
      cases h
      exact ⟨power, found, infix?_of_binary? found, by omega, rfl⟩

theorem power_lt_cast {operator : String} {power : Nat} (known : Power.infix? operator = some power)
    (plain : operator ∉ Power.special) : power < Power.cast := by
  have below : ∀ entry ∈ Power.keywords ++ Power.symbols,
      entry.1 ∉ Power.special → entry.2 < Power.cast := by decide
  exact below _ (Power.infix?_mem known) plain

/-- The right side of an operator reaches up to the next one that does not bind more tightly. -/
theorem readFrom_extends {operator : String} {right : Expr} {floor power : Nat} {rest : List Token}
    (known : Power.infix? operator = some power) (plain : operator ∉ Power.special)
    (reaches : floor ≤ power) (read : right.ReadFrom T (power + 1) rest) :
    (Suffix.binary operator right).Extends T floor power rest := by
  have spine := read.spine
  rw [Nat.min_eq_left (power_lt_cast known plain)] at spine
  exact binary_extends known plain reaches (.inr ⟨read.isValue, spine⟩) read.all
    fun t head next found => .inr ⟨read.ended t head next found, read.stops t head next found⟩

theorem operatorSuffix_sound (h : scope.Sound T) {operator : String} {floor power : Nat}
    (known : Power.infix? operator = some power) (reaches : floor ≤ power) :
    Gets T (fun _ => True) (operatorSuffix scope operator (power + 1))
      (Suffix.Extends T floor power) := by
  refine Gets.ite (fun same => ?_) fun notCast => Gets.ite (fun same => ?_) fun notBetween => ?_
  · rw [beq_iff_eq.1 same] at known
    obtain rfl : Power.cast = power := Option.some.inj (.trans (by decide) known)
    exact Gets.map (Gets.post (typeRef_sound h.here) fun ref rest type => cast_extends type)
  · have between : power = Power.between := by
      simp only [Bool.or_eq_true, beq_iff_eq] at same
      rcases same with rfl | rfl <;> exact Option.some.inj (known.symm.trans (by decide))
    subst between
    refine (h.here.expr _).bind fun lower => ?_
    refine Gets.bind (Q := fun _ rest => ∃ next mid,
      lower.ReadFrom T (Power.between + 1) (next :: mid) ∧ next.isCommand "and" = true)
      (Gets.require fun t ts read and => ⟨t, ts, read, and⟩) fun _ => ?_
    intro ts s rest all marked run
    obtain ⟨next, mid, first, and⟩ := marked
    refine (h.here.expr _).bind (fun upper => Gets.ret fun rest second => ?_) ts s rest all trivial run
    exact between_extends reaches first and second
  have plain : operator ∉ Power.special := by
    simp only [Bool.or_eq_true, beq_iff_eq, not_or] at notCast notBetween
    simp [Power.special, notCast, notBetween]
  refine Gets.ite (fun isIn => ?_) fun _ => ?_
  · refine Gets.map (Gets.post (membership_sound h _) fun right rest side => ?_)
    rcases side with ⟨tuple, all⟩ | read
    · exact binary_extends known plain reaches (.inl ⟨isIn, tuple⟩) all fun _ _ _ _ =>
        .inl (by rw [tuple, Bool.and_true]; exact isIn)
    · exact readFrom_extends known plain reaches read
  · exact Gets.map (Gets.post (h.here.expr _) fun right rest => readFrom_extends known plain reaches)

/-- With the suffix the value may still go on, and without one it is all read. -/
def Suffix.Continues (T : Token → Prop) (floor : Nat) (e : Expr) :
    Option Suffix → List Token → Prop
  | none => e.ReadFrom T floor
  | some s => (s.apply e).Grown T floor

/-- An operator that reaches the floor goes on with the value, and any other one ends it. -/
theorem suffix_sound (h : scope.Sound T) (floor : Nat) (e : Expr) :
    Gets T (e.Grown T floor) (suffix scope floor) (Suffix.Continues T floor e) := by
  refine Gets.bind (Gets.accept (V := e.ReadFrom T floor) (Q := fun found _ => ∃ power,
    Power.infix? found.1 = some power ∧ floor ≤ power ∧ found.2 = power + 1 ∧ e.IsParsed T ∧
      power < e.edge ∧ min floor Power.cast ≤ e.spine) ?_ ?_) fun o => ?_
  · intro t ts found _ grown accepted
    obtain ⟨power, binary, known, reaches, right⟩ := operatorFrom_eq accepted
    exact ⟨power, known, reaches, right, grown.toIsParsed, grown.stops t rfl power binary,
      grown.spine⟩
  · intro ts grown missing
    refine ⟨grown, fun t head power found => Nat.lt_of_not_le fun reaches => ?_⟩
    have none := missing t head
    rw [operatorFrom, found] at none
    simp [Nat.not_lt.2 reaches] at none
  cases o with
  | none => exact Gets.ret fun ts read => read
  | some found =>
    obtain ⟨operator, right⟩ := found
    intro ts o rest all reading run
    obtain ⟨power, known, reaches, rfl, parsed, edge, spine⟩ := reading
    have goesOn : Gets T (fun _ => True) (some <$> operatorSuffix scope operator (power + 1))
        (Suffix.Continues T floor e) :=
      Gets.map (Gets.post (operatorSuffix_sound h known reaches) fun s rest goes =>
        goes e parsed edge spine)
    exact goesOn ts o rest all trivial run

theorem suffix_shorter (h : scope.Sound T) {floor : Nat} {ts rest : List Token} {s : Suffix}
    (all : ∀ t ∈ ts, T t) (run : suffix scope floor ts = .ok (some s, rest)) :
    rest.length < ts.length := by
  obtain ⟨o, mid, ran, next⟩ := bind_eq_ok.1 run
  cases o with
  | none => cases (pure_eq_ok.1 next).1
  | some found =>
    obtain ⟨operator, right⟩ := found
    obtain ⟨t, rfl, accepted⟩ := accept_eq_some ran
    obtain ⟨power, _, known, reaches, rfl⟩ := operatorFrom_eq accepted
    simp only [map_eq_bind] at next
    obtain ⟨s, rest', ran', last⟩ := bind_eq_ok.1 next
    obtain ⟨_, rfl⟩ := pure_eq_ok.1 last
    have left := ((operatorSuffix_sound h known reaches) mid s rest
      (fun t mem => all t (List.mem_cons_of_mem _ mem)) trivial ran').1
    have := left.length_le
    rw [List.length_cons]
    omega

/-- Operators are read until one does not reach the floor. -/
theorem suffixes_sound (h : scope.Sound T) (floor : Nat) (first : Expr) :
    Gets T (first.Grown T floor) (many (suffix scope floor)) fun suffixes rest =>
      (suffixes.foldl Suffix.apply first).ReadFrom T floor rest := by
  refine Gets.many (I := fun suffixes rest => (suffixes.foldl Suffix.apply first).Grown T floor rest)
    (fun suffixes => ?_) (fun ts s rest => suffix_shorter h) fun suffixes grown => ⟨grown, nofun⟩
  refine (suffix_sound h floor (suffixes.foldl Suffix.apply first)).post fun o rest continues => ?_
  cases o with
  | none => exact continues
  | some s => simpa [Suffix.Continues] using continues

end SqlQuery.Grammar
