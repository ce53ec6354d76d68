import Mathlib.Data.List.TakeWhile
import SqlQuery.Lexeme.Literal
import SqlQuery.Lexeme.Name
import SqlQuery.Lexeme.Symbol

/-!
Texts of which the second goes on with the first as far as it has no blank. What a reader takes off
the front of the first text it takes off the second, too, as no reader looks past a blank to end a
lexeme.
-/

namespace SqlQuery

open Text

/-- As far as the second text goes without a blank, it is the front of the first one. -/
def Loosens (cs cs' : List Char) : Prop := cs'.takeWhile (fun c => !isBlank c) <+: cs

def blankChars : List Char := [' ', '\t', '\n', '\r', '\x0b', '\x0c']

theorem mem_blankChars {c : Char} (h : isBlank c = true) : c ∈ blankChars := by
  simp only [isBlank, Bool.or_eq_true, beq_iff_eq] at h
  simpa only [blankChars, List.mem_cons, List.not_mem_nil, or_false, or_assoc] using h

/-- No blank is in the class. -/
def IsPlainClass (p : Char → Bool) : Prop := ∀ c, p c = true → isBlank c = false

theorem IsPlainClass.of_blankChars {p : Char → Bool} (h : blankChars.any p = false) :
    IsPlainClass p := by
  intro c holds
  cases blank : isBlank c with
  | false => rfl
  | true => exact absurd holds (List.any_eq_false.1 h c (mem_blankChars blank))

theorem isDigit_plain : IsPlainClass Char.isDigit := .of_blankChars (by decide)

theorem isWordChar_plain : IsPlainClass isWordChar := .of_blankChars (by decide)

theorem eq_plain {c : Char} (h : c ∉ blankChars) : IsPlainClass (· == c) := by
  refine .of_blankChars (List.any_eq_false.2 fun d mem same => h ?_)
  exact eq_of_beq same ▸ mem

namespace Loosens

variable {cs cs' : List Char} {c : Char}

theorem refl (cs : List Char) : Loosens cs cs := List.takeWhile_prefix _

theorem of_blank (blank : isBlank c = true) (cs cs' : List Char) : Loosens cs (c :: cs') := by
  simp [Loosens, blank]

theorem append (h : Loosens cs cs') (front : List Char) : Loosens (front ++ cs) (front ++ cs') := by
  induction front with
  | nil => exact h
  | cons d front ih =>
    unfold Loosens
    rw [List.cons_append, List.cons_append, List.takeWhile_cons]
    split
    · exact List.cons_prefix_cons.2 ⟨rfl, ih⟩
    · exact List.nil_prefix

theorem uncons (h : Loosens cs (c :: cs')) (plain : isBlank c = false) :
    ∃ ds, cs = c :: ds ∧ Loosens ds cs' := by
  unfold Loosens at h
  rw [List.takeWhile_cons_of_pos (by simp [plain])] at h
  obtain ⟨back, rfl⟩ := h
  exact ⟨_, rfl, List.prefix_append _ _⟩

/-- The second text starts with nothing but a blank or what the first one starts with. -/
theorem ends (h : Loosens cs cs') {p : Char → Bool} (plain : IsPlainClass p)
    (ended : cs.head?.any p = false) : cs'.head?.any p = false := by
  cases cs' with
  | nil => rfl
  | cons c cs' =>
    cases holds : p c with
    | false => simpa using holds
    | true =>
      obtain ⟨ds, rfl, _⟩ := h.uncons (plain c holds)
      simp [holds] at ended

theorem starts (h : Loosens cs cs') {p : Char → Bool} (plain : IsPlainClass p)
    (started : cs'.head?.any p = true) : cs.head?.any p = true := by
  cases ended : cs.head?.any p with
  | true => rfl
  | false => rw [h.ends plain ended] at started; cases started

theorem head_ne (h : Loosens cs cs') (other : c ∉ blankChars) (apart : cs.head? ≠ some c) :
    cs'.head? ≠ some c := by
  have none (ds : List Char) : ds.head?.any (· == c) = false ↔ ds.head? ≠ some c := by
    cases ds <;> simp
  exact (none cs').1 (h.ends (eq_plain other) ((none cs).2 apart))

/-- A front without blanks. -/
theorem front (h : Loosens cs cs') {word : List Char} (plain : word.any isBlank = false)
    (starts : word <+: cs') : word <+: cs := by
  induction word generalizing cs cs' with
  | nil => exact List.nil_prefix
  | cons d word ih =>
    obtain ⟨first, others⟩ := Bool.or_eq_false_iff.1 plain
    obtain ⟨more, rfl⟩ := starts
    obtain ⟨ds, rfl, loose⟩ := h.uncons first
    exact List.cons_prefix_cons.2 ⟨rfl, ih loose others (List.prefix_append _ _)⟩

end Loosens

/-- If fewer of the list pass a second test, but the first that passed still does, it is the first. -/
theorem find?_of_fewer {α : Type} {p q : α → Bool} {as : List α} {a : α}
    (found : as.find? p = some a) (fewer : ∀ b ∈ as, q b = true → p b = true) (still : q a = true) :
    as.find? q = some a := by
  induction as with
  | nil => cases found
  | cons b as ih =>
    rw [List.find?_cons] at found ⊢
    cases first : p b with
    | true =>
      rw [first] at found
      obtain rfl := Option.some.inj found
      rw [still]
    | false =>
      have gone : q b = false := by
        cases passes : q b with
        | false => rfl
        | true => rw [fewer b List.mem_cons_self passes] at first; cases first
      rw [first] at found
      rw [gone]
      exact ih found fun c mem => fewer c (List.mem_cons_of_mem b mem)

theorem find?_none_of_fewer {α : Type} {p q : α → Bool} {as : List α} (none : as.find? p = none)
    (fewer : ∀ b ∈ as, q b = true → p b = true) : as.find? q = .none := by
  refine List.find?_eq_none.2 fun b mem passes => ?_
  exact List.find?_eq_none.1 none b mem (fewer b mem passes)

namespace Lexeme.Literal

variable {cs cs' source rest rest' : List Char}

theorem head?_dropWhile_any (p : Char → Bool) (cs : List Char) :
    (cs.dropWhile p).head?.any p = false := by
  have ended := List.head?_dropWhile_not p cs
  cases head : (cs.dropWhile p).head? with
  | none => rfl
  | some c =>
    rw [head] at ended
    simpa using ended

theorem run_eq {p : Char → Bool} (h : run p (source ++ rest) = (source, rest)) :
    (∀ c ∈ source, p c = true) ∧ rest.head?.any p = false := by
  obtain ⟨taken, left⟩ := Prod.mk.inj h
  refine ⟨fun c mem => ?_, ?_⟩
  · rw [← taken] at mem
    exact List.mem_takeWhile_imp mem
  · rw [← left]
    exact head?_dropWhile_any p _

theorem run_append_of {p : Char → Bool} (all : ∀ c ∈ source, p c = true)
    (ended : rest.head?.any p = false) : run p (source ++ rest) = (source, rest) := by
  have none : rest.takeWhile p = [] ∧ rest.dropWhile p = rest := by
    cases rest with
    | nil => exact ⟨rfl, rfl⟩
    | cons c rest =>
      have no : p c = false := ended
      simp [no]
  rw [run, List.takeWhile_append_of_pos all, List.dropWhile_append_of_pos all, none.1, none.2,
    List.append_nil]

theorem run_loosened {p : Char → Bool} (plain : IsPlainClass p)
    (h : run p (source ++ rest) = (source, rest)) (loose : Loosens rest rest') :
    run p (source ++ rest') = (source, rest') := by
  obtain ⟨all, ended⟩ := run_eq h
  exact run_append_of all (loose.ends plain ended)

/-- Two points in a row after this text stay together, if the first of them stays where it is. -/
def KeepsPoints (rest rest' : List Char) : Prop :=
  rest.take 2 = ['.', '.'] → rest'.head? = some '.' → rest'.take 2 = ['.', '.']

theorem fraction_loosened (h : fraction (source ++ rest) = (source, rest))
    (loose : Loosens rest rest') (points : source = [] → KeepsPoints rest rest') :
    fraction (source ++ rest') = (source, rest') := by
  cases source with
  | nil =>
    rw [List.nil_append] at h ⊢
    cases rest' with
    | nil => rfl
    | cons c cs' =>
      by_cases point : c = '.'
      · subst point
        obtain ⟨cs, rfl, _⟩ := loose.uncons (by decide)
        have twice : cs.head? = some '.' := by
          by_contra other
          simp [fraction, other] at h
        have taken : ('.' :: cs).take 2 = ['.', '.'] := by
          obtain ⟨ds, rfl⟩ := List.head?_eq_some_iff.1 twice
          rfl
        have twice' : cs'.head? = some '.' := by
          have kept := points rfl taken rfl
          cases cs' with
          | nil => simp at kept
          | cons d ds => simpa using kept
        simp [fraction, twice']
      · unfold fraction
        split
        · rename_i same
          exact absurd (List.cons.inj same).1 point
        · rfl
  | cons c digits =>
    unfold fraction at h
    split at h
    case h_2 => cases h
    case h_1 cs same =>
      obtain ⟨rfl, rfl⟩ := List.cons.inj same
      split at h
      case isTrue => cases h
      case isFalse single =>
        obtain ⟨taken, left⟩ := Prod.mk.inj h
        have ran : run Char.isDigit (digits ++ rest) = (digits, rest) :=
          Prod.ext (List.cons.inj taken).2 left
        have single' : ((digits ++ rest').head? == some '.') = false := by
          refine beq_false_of_ne ((loose.append digits).head_ne (by decide) ?_)
          simpa using single
        rw [List.cons_append, fraction, single', run_loosened isDigit_plain ran loose]
        rfl

/-- A digit stands where the digits of an exponent would begin. -/
def startsPower (cs : List Char) : Bool := (sign cs).2.head?.any Char.isDigit

theorem startsPower_of_loosened (loose : Loosens cs cs') (h : startsPower cs' = true) :
    startsPower cs = true := by
  cases cs' with
  | nil => cases h
  | cons c ds' =>
    unfold startsPower sign at h
    dsimp only at h
    split at h
    case isTrue mark =>
      have plain : isBlank c = false := by
        simp only [Bool.or_eq_true, beq_iff_eq] at mark
        rcases mark with rfl | rfl <;> decide
      obtain ⟨ds, rfl, loose'⟩ := loose.uncons plain
      simp only [startsPower, sign, mark, if_true]
      exact loose'.starts isDigit_plain h
    case isFalse digit =>
      have isDigit : c.isDigit = true := h
      obtain ⟨ds, rfl, _⟩ := loose.uncons (isDigit_plain c isDigit)
      simp only [startsPower, sign, digit]
      exact h

theorem sign_append_of {front : List Char} (some : front ≠ []) (cs : List Char) :
    sign (front ++ cs) = ((sign front).1, (sign front).2 ++ cs) := by
  obtain ⟨c, more, rfl⟩ := List.exists_cons_of_ne_nil some
  simp only [List.cons_append, sign]
  split <;> rfl

theorem isExponent_plain {c : Char} (h : (c == 'e' || c == 'E') = true) : isBlank c = false := by
  simp only [Bool.or_eq_true, beq_iff_eq] at h
  rcases h with rfl | rfl <;> decide

theorem exponent_none (loose : Loosens rest rest') (h : exponent rest = ([], rest)) :
    exponent rest' = ([], rest') := by
  cases rest' with
  | nil => rfl
  | cons c cs' =>
    rw [exponent]
    dsimp only
    split
    case isFalse => rfl
    case isTrue taken =>
      simp only [Bool.and_eq_true] at taken
      obtain ⟨cs, rfl, loose'⟩ := loose.uncons (isExponent_plain taken.1)
      have digits : (sign cs).2.head?.any Char.isDigit = true :=
        startsPower_of_loosened loose' taken.2
      rw [exponent] at h
      dsimp only at h
      rw [if_pos (Bool.and_eq_true_iff.2 ⟨taken.1, digits⟩)] at h
      cases h

theorem exponent_loosened (h : exponent (source ++ rest) = (source, rest))
    (loose : Loosens rest rest') : exponent (source ++ rest') = (source, rest') := by
  cases source with
  | nil => exact exponent_none loose h
  | cons e more =>
    rw [List.cons_append, exponent] at h
    dsimp only at h
    split at h
    case isFalse => cases h
    case isTrue taken =>
      obtain ⟨front, left⟩ := Prod.mk.inj h
      have split :
          (sign (more ++ rest)).1 ++ (run Char.isDigit (sign (more ++ rest)).2).1 = more := by
        simpa using front
      have some : more ≠ [] := by
        rintro rfl
        obtain ⟨_, digits⟩ := List.append_eq_nil_iff.1 split
        simp only [Bool.and_eq_true] at taken
        obtain ⟨d, head, isDigit⟩ := (Option.any_eq_true ..).1 taken.2
        obtain ⟨ds, same⟩ := List.head?_eq_some_iff.1 head
        rw [same] at digits
        simp [run, isDigit] at digits
      rw [sign_append_of some] at split left taken
      have ran : run Char.isDigit ((sign more).2 ++ rest) = ((sign more).2, rest) := by
        refine Prod.ext ?_ left
        exact List.append_cancel_left (split.trans (sign_append more).symm)
      have digits : ((sign more).2 ++ rest').head?.any Char.isDigit = true := by
        obtain ⟨_, ended⟩ := run_eq ran
        cases inner : (sign more).2 with
        | nil =>
          rw [inner] at taken
          simp [ended] at taken
        | cons d ds =>
          rw [inner] at taken
          simpa using (Bool.and_eq_true_iff.1 taken).2
      have first := (Bool.and_eq_true_iff.1 taken).1
      rw [List.cons_append, exponent]
      dsimp only
      rw [sign_append_of some, run_loosened isDigit_plain ran loose]
      simp only [first, digits, Bool.and_self, if_true]
      rw [List.cons_append, sign_append]

/-- A text of digits. -/
def IsDigits (cs : List Char) : Prop := cs ≠ [] ∧ ∀ c ∈ cs, c.isDigit = true

theorem decimal_loosened (h : decimal (source ++ rest) = (source, rest)) (starts : source ≠ [])
    (loose : Loosens rest rest') (points : IsDigits source → KeepsPoints rest rest') :
    decimal (source ++ rest') = (source, rest') := by
  obtain ⟨whole, left, ran⟩ : ∃ whole left, run Char.isDigit (source ++ rest) = (whole, left) :=
    ⟨_, _, rfl⟩
  obtain ⟨part, left₂, ran₂⟩ : ∃ part left₂, fraction left = (part, left₂) := ⟨_, _, rfl⟩
  obtain ⟨power, last, ran₃⟩ : ∃ power last, exponent left₂ = (power, last) := ⟨_, _, rfl⟩
  have split := run_append Char.isDigit (source ++ rest)
  have split₂ := fraction_append left
  have split₃ := exponent_append left₂
  simp only [decimal, ran, ran₂, ran₃, Prod.mk.injEq] at h split split₂ split₃
  obtain ⟨rfl, rfl⟩ := h
  subst split₃ split₂
  have first : run Char.isDigit (whole ++ (part ++ (power ++ rest'))) =
      (whole, part ++ (power ++ rest')) := by
    refine run_loosened isDigit_plain ?_ ((loose.append power).append part)
    rw [split]
    exact ran
  have second : fraction (part ++ (power ++ rest')) = (part, power ++ rest') := by
    refine fraction_loosened ran₂ (loose.append power) fun none => ?_
    subst none
    intro twice
    obtain ⟨cs, same⟩ : ∃ cs, power ++ last = '.' :: cs := by
      cases after : power ++ last with
      | nil => simp [after] at twice
      | cons c cs => exact ⟨cs, by simpa [after] using congrArg List.head? twice⟩
    have noPower : power = [] := by
      rw [same] at ran₃
      exact (congrArg Prod.fst ran₃).symm
    subst noPower
    rw [List.append_nil, List.append_nil] at starts points
    exact points ⟨starts, (run_eq (split ▸ ran)).1⟩ twice
  have third : exponent (power ++ rest') = (power, rest') := exponent_loosened ran₃ loose
  simp only [decimal, List.append_assoc, first, second, third]

end Lexeme.Literal

end SqlQuery
