import SqlQuery.Text.Class

/-!
Texts in lowercase. The case of letters does not tell the characters of a class apart: no class that
readers ask for has a letter in one case and lacks it in the other.
-/

namespace SqlQuery.Text

variable {p q : Char → Bool} {c x : Char}

theorem char_le_iff {c d : Char} : c ≤ d ↔ c.toNat ≤ d.toNat := by
  simp [Char.le_def, UInt32.le_iff_toNat_le]

theorem isUpper_iff : c.isUpper = true ↔ 65 ≤ c.toNat ∧ c.toNat ≤ 90 := by
  delta Char.isUpper
  simp [UInt32.le_iff_toNat_le]

theorem isAlpha_iff :
    c.isAlpha = true ↔ 65 ≤ c.toNat ∧ c.toNat ≤ 90 ∨ 97 ≤ c.toNat ∧ c.toNat ≤ 122 := by
  delta Char.isAlpha Char.isUpper Char.isLower
  simp [UInt32.le_iff_toNat_le]

theorem toNat_toLower (c : Char) :
    c.toLower.toNat = if 65 ≤ c.toNat ∧ c.toNat ≤ 90 then c.toNat + 32 else c.toNat := by
  have upper : (c.val ≥ 'A'.val ∧ c.val ≤ 'Z'.val) ↔ 65 ≤ c.toNat ∧ c.toNat ≤ 90 := by
    simp only [ge_iff_le, UInt32.le_iff_toNat_le]
    rfl
  delta Char.toLower
  by_cases h : 65 ≤ c.toNat ∧ c.toNat ≤ 90
  · rw [if_pos h, dif_pos (upper.2 h)]
    have value : c.val.toNat = c.toNat := Char.toNat_val
    have apart : ('a'.val - 'A'.val).toNat = 32 := by decide
    calc (c.val + ('a'.val - 'A'.val)).toNat
      _ = (c.val.toNat + ('a'.val - 'A'.val).toNat) % 2 ^ 32 := UInt32.toNat_add _ _
      _ = c.toNat + 32 := by omega
  · rw [if_neg h, dif_neg (h ∘ upper.1)]

theorem utf8Size_toLower (c : Char) : c.toLower.utf8Size = c.utf8Size := by
  have one {d : Char} (ascii : d.toNat ≤ 127) : d.utf8Size = 1 := if_pos ascii
  have cases := toNat_toLower c
  split at cases
  · rw [one (by omega), one (by omega)]
  · rw [Char.toNat_inj.1 cases]

/-- A letter is the only character that another case is there for, and that case is a letter. -/
theorem toLower_cases (c : Char) :
    c.toLower = c ∨ c.isAlpha = true ∧ c.toLower.isAlpha = true := by
  have cases := toNat_toLower c
  simp only [isAlpha_iff]
  split at cases
  · omega
  · exact .inl (Char.toNat_inj.1 cases)

theorem toLower_eq_iff (other : x.isAlpha = false) : c.toLower = x ↔ c = x := by
  rcases toLower_cases c with same | ⟨letter, lower⟩
  · rw [same]
  · constructor
    · rintro rfl
      rw [other] at lower
      cases lower
    · rintro rfl
      rw [other] at letter
      cases letter

theorem toLower_of_other (other : c.isAlpha = false) : c.toLower = c := (toLower_eq_iff other).2 rfl

theorem toLower_ne (other : x.isAlpha = false) (h : c ≠ x) : c.toLower ≠ x :=
  h ∘ (toLower_eq_iff other).1

theorem toLower_beq (other : x.isAlpha = false) : (c.toLower == x) = (c == x) := by
  rw [Bool.eq_iff_iff, beq_iff_eq, beq_iff_eq]
  exact toLower_eq_iff other

/-- A test for a letter in either case. -/
theorem toLower_either (x upper : Char) (isUpper : upper.isUpper = true)
    (lower : upper.toLower = x) :
    (c.toLower == x || c.toLower == upper) = (c == x || c == upper) := by
  subst lower
  have bounds := isUpper_iff.1 isUpper
  rw [Bool.eq_iff_iff]
  simp only [Bool.or_eq_true, beq_iff_eq, ← Char.toNat_inj, toNat_toLower, if_pos bounds]
  split <;> omega

/-- No character is a letter, so that there is no other case. -/
def noLetter (cs : List Char) : Bool := cs.all fun c => !c.isAlpha

theorem other_of_noLetter {cs : List Char} (others : noLetter cs = true) (member : c ∈ cs) :
    c.isAlpha = false := by
  simpa using List.all_eq_true.1 others c member

/-- The class has a letter in either case or in none. -/
def Caseless (p : Char → Bool) : Prop := ∀ c, p c.toLower = p c

namespace Caseless

theorem beq (other : x.isAlpha = false) : Caseless (· == x) := fun _ => toLower_beq other

theorem contains {cs : List Char} (others : noLetter cs = true) : Caseless cs.contains := by
  intro c
  rw [Bool.eq_iff_iff, List.contains_iff_mem, List.contains_iff_mem]
  constructor
  · intro member
    exact (toLower_eq_iff (other_of_noLetter others member)).1 rfl ▸ member
  · intro member
    exact (toLower_of_other (other_of_noLetter others member)).symm ▸ member

theorem or (left : Caseless p) (right : Caseless q) : Caseless fun c => p c || q c := by
  intro c
  simp only [left c, right c]

theorem not (h : Caseless p) : Caseless fun c => !p c := by
  intro c
  simp only [h c]

end Caseless

theorem isBlank_caseless : Caseless isBlank :=
  ((((Caseless.beq rfl).or (.beq rfl)).or (.beq rfl)).or (.beq rfl)).or (.beq rfl) |>.or (.beq rfl)

theorem isOperatorChar_caseless : Caseless isOperatorChar := .contains (by decide)

theorem isDelimiter_caseless : Caseless isDelimiter :=
  (isBlank_caseless.or isOperatorChar_caseless).or (.contains (by decide))

theorem isWordChar_caseless : Caseless isWordChar := isDelimiter_caseless.not

theorem isDigit_caseless : Caseless Char.isDigit := by
  intro c
  rw [Bool.eq_iff_iff, Char.isDigit_iff_toNat, Char.isDigit_iff_toNat, toNat_toLower]
  simp only [Char.reduceToNat]
  split <;> omega

theorem isBinaryDigit_caseless : Caseless isBinaryDigit := (Caseless.beq rfl).or (.beq rfl)

theorem isOctalDigit_caseless : Caseless isOctalDigit := by
  intro c
  rw [Bool.eq_iff_iff]
  simp only [isOctalDigit, Bool.and_eq_true, decide_eq_true_eq, char_le_iff, toNat_toLower,
    Char.reduceToNat]
  split <;> omega

/-- The letters among the digits are there in both cases. -/
theorem isHexDigit_caseless : Caseless isHexDigit := by
  intro c
  rw [Bool.eq_iff_iff]
  simp only [isHexDigit, Bool.or_eq_true, Bool.and_eq_true, decide_eq_true_eq,
    Char.isDigit_iff_toNat, char_le_iff, toNat_toLower, Char.reduceToNat]
  split <;> omega

section

variable {cs : List Char} {s t : String}

@[simp] theorem lowerChars_nil : lowerChars [] = [] := rfl

@[simp] theorem lowerChars_cons : lowerChars (c :: cs) = c.toLower :: lowerChars cs := rfl

@[simp] theorem lowerChars_append (as bs : List Char) :
    lowerChars (as ++ bs) = lowerChars as ++ lowerChars bs :=
  List.map_append

@[simp] theorem lowerChars_lowerChars (cs : List Char) :
    lowerChars (lowerChars cs) = lowerChars cs := by
  have again (c : Char) : c.toLower.toLower = c.toLower := by
    have once := toNat_toLower c
    have twice := toNat_toLower c.toLower
    apply Char.toNat_inj.1
    split at once <;> split at twice <;> omega
  rw [lowerChars, lowerChars, List.map_map]
  exact List.map_congr_left fun c _ => again c

theorem take_lowerChars (n : Nat) (cs : List Char) :
    (lowerChars cs).take n = lowerChars (cs.take n) :=
  List.map_take.symm

theorem drop_lowerChars (n : Nat) (cs : List Char) :
    (lowerChars cs).drop n = lowerChars (cs.drop n) :=
  List.map_drop.symm

@[simp] theorem size_lowerChars (cs : List Char) : size (lowerChars cs) = size cs := by
  induction cs with
  | nil => rfl
  | cons c cs ih => rw [lowerChars_cons, size_cons, size_cons, ih, utf8Size_toLower]

theorem lowerChars_eq_iff {ds : List Char} (others : noLetter ds = true) :
    lowerChars cs = ds ↔ cs = ds := by
  induction ds generalizing cs with
  | nil => simp [lowerChars]
  | cons d ds ih =>
    obtain ⟨other, others⟩ := Bool.and_eq_true_iff.1 others
    cases cs with
    | nil => simp
    | cons c cs =>
      rw [lowerChars_cons, List.cons.injEq, List.cons.injEq, ih others,
        toLower_eq_iff (by simpa using other)]

/-- A mark without anything after it has nothing after it in lowercase either. -/
theorem not_followed_lower (other : x.isAlpha = false)
    (alone : ∀ d ds, c = x → cs = d :: ds → False) (d : Char) (ds : List Char)
    (mark : c.toLower = x) (more : lowerChars cs = d :: ds) : False := by
  cases cs with
  | nil => cases more
  | cons e es => exact alone e es ((toLower_eq_iff other).1 mark) rfl

theorem prefix_lowerChars {p : List Char} (others : noLetter p = true) :
    p <+: lowerChars cs ↔ p <+: cs := by
  rw [List.prefix_iff_eq_take, List.prefix_iff_eq_take, take_lowerChars, eq_comm,
    lowerChars_eq_iff others, eq_comm]

theorem isPrefixOf_lowerChars {p : List Char} (others : noLetter p = true) :
    p.isPrefixOf (lowerChars cs) = p.isPrefixOf cs := by
  rw [Bool.eq_iff_iff, List.isPrefixOf_iff_prefix, List.isPrefixOf_iff_prefix,
    prefix_lowerChars others]

theorem exists_of_lowerChars_eq_cons {ds : List Char} (other : x.isAlpha = false)
    (h : lowerChars cs = x :: ds) : ∃ rest, cs = x :: rest := by
  cases cs with
  | nil => cases h
  | cons c rest =>
    obtain rfl := (toLower_eq_iff other).1 (List.cons.inj h).1
    exact ⟨rest, rfl⟩

namespace Caseless

theorem comp (h : Caseless p) : p ∘ Char.toLower = p := funext h

theorem takeWhile (h : Caseless p) (cs : List Char) :
    (lowerChars cs).takeWhile p = lowerChars (cs.takeWhile p) := by
  rw [lowerChars, List.takeWhile_map, h.comp, lowerChars]

theorem dropWhile (h : Caseless p) (cs : List Char) :
    (lowerChars cs).dropWhile p = lowerChars (cs.dropWhile p) := by
  rw [lowerChars, List.dropWhile_map, h.comp, lowerChars]

theorem head (h : Caseless p) (cs : List Char) : (lowerChars cs).head?.any p = cs.head?.any p := by
  cases cs with
  | nil => rfl
  | cons c cs => exact h c

end Caseless

theorem head?_lowerChars_beq (other : x.isAlpha = false) (cs : List Char) :
    ((lowerChars cs).head? == some x) = (cs.head? == some x) := by
  cases cs with
  | nil => rfl
  | cons c cs => simpa using toLower_beq (c := c) other

/-- What is taken off the front of a text and what is left, in lowercase. -/
def lowerSplit (split : List Char × List Char) : List Char × List Char :=
  (lowerChars split.1, lowerChars split.2)

@[simp] theorem lower_ofList (cs : List Char) :
    lower (String.ofList cs) = String.ofList (lowerChars cs) := by
  simp [lower]

@[simp] theorem toList_lower (s : String) : (lower s).toList = lowerChars s.toList := by
  simp [lower]

@[simp] theorem lower_lower (s : String) : lower (lower s) = lower s := by
  simp [lower]

theorem lower_append (s t : String) : lower (s ++ t) = lower s ++ lower t := by
  simp [lower]

theorem lower_eq_iff (others : noLetter t.toList = true) : lower s = t ↔ s = t := by
  rw [← String.toList_inj, toList_lower, lowerChars_eq_iff others, String.toList_inj]

/-- The digits of a number are no letters. -/
theorem lower_toString (n : Nat) : lower (toString n) = toString n := by
  refine (lower_eq_iff (List.all_eq_true.2 fun c member => ?_)).2 rfl
  have chars : (toString n).toList = Nat.toDigits 10 n := Nat.toList_repr
  have digit := Nat.isDigit_of_mem_toDigits (by decide) (by decide) (chars ▸ member)
  simp only [Char.isDigit_iff_toNat, Char.reduceToNat] at digit
  rw [Bool.not_eq_true', ← Bool.not_eq_true, isAlpha_iff]
  omega

end

end SqlQuery.Text
