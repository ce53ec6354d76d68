import SqlQuery.Keyword

/-!
The keywords letter by letter. What is true of each keyword is checked on lists of letters, as a check
takes a string apart anew each time it looks into it.
-/

namespace SqlQuery.Keyword

def reservedLetters : List (List Char) :=
  [['a', 'l', 'l'], ['a', 'n', 'd'], ['a', 'r', 'r', 'a', 'y'], ['a', 's'], ['a', 's', 'c'],
   ['b', 'e', 't', 'w', 'e', 'e', 'n'], ['c', 'a', 's', 'e'], ['c', 'a', 's', 't'],
   ['d', 'e', 's', 'c'], ['d', 'i', 's', 't', 'i', 'n', 'c', 't'], ['e', 'l', 's', 'e'],
   ['e', 'n', 'd'], ['e', 'x', 'c', 'e', 'p', 't'], ['e', 'x', 'i', 's', 't', 's'],
   ['f', 'a', 'l', 's', 'e'], ['f', 'e', 't', 'c', 'h'], ['f', 'o', 'r'], ['f', 'r', 'o', 'm'],
   ['h', 'a', 'v', 'i', 'n', 'g'], ['i', 'l', 'i', 'k', 'e'], ['i', 'n'],
   ['i', 'n', 't', 'e', 'r', 's', 'e', 'c', 't'], ['i', 's'], ['j', 'o', 'i', 'n'],
   ['l', 'a', 't', 'e', 'r', 'a', 'l'], ['l', 'i', 'k', 'e'], ['l', 'i', 'm', 'i', 't'],
   ['m', 'a', 't', 'e', 'r', 'i', 'a', 'l', 'i', 'z', 'e', 'd'], ['n', 'o', 't'],
   ['n', 'u', 'l', 'l'], ['o', 'f', 'f', 's', 'e', 't'], ['o', 'n'], ['o', 'r'],
   ['o', 'v', 'e', 'r'], ['r', 'e', 'c', 'u', 'r', 's', 'i', 'v', 'e'],
   ['s', 'e', 'l', 'e', 'c', 't'], ['t', 'h', 'e', 'n'], ['t', 'r', 'u', 'e'],
   ['u', 'n', 'i', 'o', 'n'], ['u', 's', 'i', 'n', 'g'], ['v', 'a', 'l', 'u', 'e', 's'],
   ['w', 'h', 'e', 'n'], ['w', 'h', 'e', 'r', 'e'], ['w', 'i', 'n', 'd', 'o', 'w'],
   ['w', 'i', 't', 'h']]

def phraseLetters : List (List Char) :=
  [['c', 'r', 'o', 's', 's', ' ', 'j', 'o', 'i', 'n'],
   ['d', 'i', 's', 't', 'i', 'n', 'c', 't', ' ', 'o', 'n'],
   ['e', 'x', 'c', 'e', 'p', 't', ' ', 'a', 'l', 'l'],
   ['f', 'u', 'l', 'l', ' ', 'j', 'o', 'i', 'n'],
   ['f', 'u', 'l', 'l', ' ', 'o', 'u', 't', 'e', 'r', ' ', 'j', 'o', 'i', 'n'],
   ['g', 'r', 'o', 'u', 'p', ' ', 'b', 'y'], ['i', 'n', 'n', 'e', 'r', ' ', 'j', 'o', 'i', 'n'],
   ['i', 'n', 't', 'e', 'r', 's', 'e', 'c', 't', ' ', 'a', 'l', 'l'],
   ['i', 's', ' ', 'n', 'o', 't'], ['l', 'e', 'f', 't', ' ', 'j', 'o', 'i', 'n'],
   ['l', 'e', 'f', 't', ' ', 'o', 'u', 't', 'e', 'r', ' ', 'j', 'o', 'i', 'n'],
   ['n', 'a', 't', 'u', 'r', 'a', 'l', ' ', 'f', 'u', 'l', 'l', ' ', 'j', 'o', 'i', 'n'],
   ['n', 'a', 't', 'u', 'r', 'a', 'l', ' ', 'f', 'u', 'l', 'l', ' ', 'o', 'u', 't', 'e', 'r', ' ', 'j', 'o', 'i', 'n'],
   ['n', 'a', 't', 'u', 'r', 'a', 'l', ' ', 'i', 'n', 'n', 'e', 'r', ' ', 'j', 'o', 'i', 'n'],
   ['n', 'a', 't', 'u', 'r', 'a', 'l', ' ', 'j', 'o', 'i', 'n'],
   ['n', 'a', 't', 'u', 'r', 'a', 'l', ' ', 'l', 'e', 'f', 't', ' ', 'j', 'o', 'i', 'n'],
   ['n', 'a', 't', 'u', 'r', 'a', 'l', ' ', 'l', 'e', 'f', 't', ' ', 'o', 'u', 't', 'e', 'r', ' ', 'j', 'o', 'i', 'n'],
   ['n', 'a', 't', 'u', 'r', 'a', 'l', ' ', 'r', 'i', 'g', 'h', 't', ' ', 'j', 'o', 'i', 'n'],
   ['n', 'a', 't', 'u', 'r', 'a', 'l', ' ', 'r', 'i', 'g', 'h', 't', ' ', 'o', 'u', 't', 'e', 'r', ' ', 'j', 'o', 'i', 'n'],
   ['n', 'o', 't', ' ', 'b', 'e', 't', 'w', 'e', 'e', 'n'],
   ['n', 'o', 't', ' ', 'i', 'l', 'i', 'k', 'e'], ['n', 'o', 't', ' ', 'i', 'n'],
   ['n', 'o', 't', ' ', 'l', 'i', 'k', 'e'],
   ['n', 'o', 't', ' ', 'm', 'a', 't', 'e', 'r', 'i', 'a', 'l', 'i', 'z', 'e', 'd'],
   ['n', 'u', 'l', 'l', 's', ' ', 'f', 'i', 'r', 's', 't'],
   ['n', 'u', 'l', 'l', 's', ' ', 'l', 'a', 's', 't'], ['o', 'r', 'd', 'e', 'r', ' ', 'b', 'y'],
   ['p', 'a', 'r', 't', 'i', 't', 'i', 'o', 'n', ' ', 'b', 'y'],
   ['r', 'i', 'g', 'h', 't', ' ', 'j', 'o', 'i', 'n'],
   ['r', 'i', 'g', 'h', 't', ' ', 'o', 'u', 't', 'e', 'r', ' ', 'j', 'o', 'i', 'n'],
   ['u', 'n', 'i', 'o', 'n', ' ', 'a', 'l', 'l']]

theorem reserved_eq : reserved = reservedLetters.map String.ofList := rfl

theorem phrases_eq : phrases = phraseLetters.map String.ofList := rfl

theorem isComplete_iff {text : String} : isComplete text = true ↔ text ∈ reserved ++ phrases := by
  simp [isComplete, isReserved]

/-- What is true of the letters of every keyword is true of a keyword. -/
theorem isComplete_letters {text : String} (h : isComplete text = true) :
    ∃ letters ∈ reservedLetters ++ phraseLetters, text = String.ofList letters := by
  rw [isComplete_iff, reserved_eq, phrases_eq, ← List.map_append, List.mem_map] at h
  obtain ⟨letters, mem, rfl⟩ := h
  exact ⟨letters, mem, rfl⟩

/-- Some phrase goes on with these letters and another word. -/
def goesOn (letters : List Char) : Bool :=
  phraseLetters.any fun phrase => (letters ++ [' ']).isPrefixOf phrase

theorem isExtendable_eq (candidate : String) : isExtendable candidate = goesOn candidate.toList := by
  rw [isExtendable, phrases_eq, List.any_map, goesOn]
  simp only [Function.comp_def, String.toList_ofList]

theorem isExtendable_ofList (letters : List Char) :
    isExtendable (String.ofList letters) = goesOn letters := by
  rw [isExtendable_eq, String.toList_ofList]

/-- What phrases begin with, up to one of their blanks. -/
def beginnings : List String :=
  ["cross", "distinct", "except", "full", "full outer", "group", "inner", "intersect", "is", "left",
   "left outer", "natural", "natural full", "natural full outer", "natural inner", "natural left",
   "natural left outer", "natural right", "natural right outer", "not", "nulls", "order",
   "partition", "right", "right outer", "union"]

theorem mem_beginnings {candidate : String} (h : isExtendable candidate = true) :
    candidate ∈ beginnings := by
  have table : ∀ phrase ∈ phraseLetters, ∀ n < phrase.length,
      phrase[n]? = some ' ' → String.ofList (phrase.take n) ∈ beginnings := by
    decide +kernel
  rw [isExtendable_eq] at h
  obtain ⟨phrase, mem, starts⟩ := List.any_eq_true.1 h
  obtain ⟨rest, eq⟩ := List.isPrefixOf_iff_prefix.1 starts
  rw [List.append_assoc, List.singleton_append] at eq
  have found := table phrase mem candidate.toList.length (by simp [← eq]) (by simp [← eq])
  rwa [← eq, List.take_left, String.ofList_toList] at found

/-- The table of beginnings is short, and looked through faster than the phrases. -/
theorem not_extendable {candidate : String} (other : candidate ∉ beginnings) :
    isExtendable candidate = false :=
  Bool.eq_false_iff.2 fun h => other (mem_beginnings h)

/-- A word that no phrase has behind its first one makes none with what stands in front of it. -/
theorem apart_of_letters {word : List Char}
    (apart : ∀ phrase ∈ phraseLetters, ¬ ' ' :: word <:+: phrase) (phrase : String) :
    isComplete (phrase ++ " " ++ String.ofList word) = false ∧
      isExtendable (phrase ++ " " ++ String.ofList word) = false := by
  have single : ∀ letters ∈ reservedLetters, ' ' ∉ letters := by decide +kernel
  have spelled : (phrase ++ " " ++ String.ofList word).toList = phrase.toList ++ ' ' :: word := by
    simp [String.toList_append]
  constructor
  · refine Bool.eq_false_iff.2 fun complete => ?_
    obtain ⟨letters, mem, same⟩ := isComplete_letters complete
    rw [same, String.toList_ofList] at spelled
    subst spelled
    rcases List.mem_append.1 mem with reserved | known
    · exact single _ reserved (by simp)
    · exact apart _ known (List.suffix_append phrase.toList (' ' :: word)).isInfix
  · refine Bool.eq_false_iff.2 fun extendable => ?_
    rw [isExtendable_eq, spelled] at extendable
    obtain ⟨known, mem, starts⟩ := List.any_eq_true.1 extendable
    obtain ⟨rest, rfl⟩ := List.isPrefixOf_iff_prefix.1 starts
    refine apart _ mem ⟨phrase.toList, ' ' :: rest, ?_⟩
    simp

end SqlQuery.Keyword
