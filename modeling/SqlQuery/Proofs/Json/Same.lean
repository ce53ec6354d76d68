import Mathlib.Data.List.Forall2
import SqlQuery.Tree.Json

/-!
JSON values that are equal, whatever the order of the fields in their objects, and forms that tell a
value from every other.
-/

namespace SqlQuery.Json

/-- Equal as values: the fields of an object have no order. -/
inductive Same : Json → Json → Prop
  | null : Same .null .null
  | boolean (value : Bool) : Same (.boolean value) (.boolean value)
  | string (value : String) : Same (.string value) (.string value)
  | array {items items' : List Json} (each : List.Forall₂ Same items items') :
    Same (.array items) (.array items')
  | object {fields fields' ordered : List (String × Json)} (order : fields'.Perm ordered)
    (names : fields.map Prod.fst = ordered.map Prod.fst)
    (values : List.Forall₂ Same (fields.map Prod.snd) (ordered.map Prod.snd)) :
    Same (.object fields) (.object fields')

section

variable {j : Json} {fields fields' : List (String × Json)}

@[simp] theorem null_same : Same .null j ↔ j = .null := by
  constructor
  · rintro ⟨⟩
    rfl
  · rintro rfl
    exact .null

@[simp] theorem same_null : Same j .null ↔ j = .null := by
  constructor
  · rintro ⟨⟩
    rfl
  · rintro rfl
    exact .null

@[simp] theorem same_boolean {a b : Bool} : Same (.boolean a) (.boolean b) ↔ a = b := by
  constructor
  · rintro ⟨⟩
    rfl
  · rintro rfl
    exact .boolean a

@[simp] theorem same_string {s t : String} : Same (.string s) (.string t) ↔ s = t := by
  constructor
  · rintro ⟨⟩
    rfl
  · rintro rfl
    exact .string s

@[simp] theorem same_array {items items' : List Json} :
    Same (.array items) (.array items') ↔ List.Forall₂ Same items items' := by
  constructor
  · rintro ⟨⟩
    assumption
  · exact .array

@[simp] theorem not_string_same_tagged {s tag : String} : ¬Same (.string s) (tagged tag j) := nofun

@[simp] theorem not_tagged_same_string {s tag : String} : ¬Same (tagged tag j) (.string s) := nofun

/-- Objects of different numbers of fields are not the same. -/
@[simp] theorem not_same_of_length (lengths : fields.length ≠ fields'.length) :
    ¬Same (.object fields) (.object fields') := by
  intro h
  cases h with
  | object order names values =>
    have listed := congrArg List.length names
    rw [List.length_map, List.length_map] at listed
    exact lengths (listed.trans order.length_eq.symm)

/-- A list of fields with distinct names is fixed by which fields it has and by the order of their
names. -/
theorem eq_of_perm (order : fields.Perm fields')
    (names : fields.map Prod.fst = fields'.map Prod.fst) (distinct : (fields.map Prod.fst).Nodup) :
    fields = fields' := by
  induction fields generalizing fields' with
  | nil => exact order.nil_eq
  | cons field fields ih =>
    cases fields' with
    | nil => simp at names
    | cons field' fields' =>
      simp only [List.map_cons, List.cons.injEq] at names
      simp only [List.map_cons, List.nodup_cons, List.mem_map, not_exists, not_and] at distinct
      have head : field' = field := by
        rcases List.mem_cons.1 (order.mem_iff.2 List.mem_cons_self) with same | later
        · exact same
        · exact absurd names.1.symm (distinct.1 field' later)
      subst head
      rw [ih (order.cons_inv) names.2 distinct.2]

/-- With the same distinct names in the same order, objects are the same exactly if their values
are, one after another. -/
@[simp] theorem same_object (names : fields.map Prod.fst = fields'.map Prod.fst)
    (distinct : (fields.map Prod.fst).Nodup) :
    Same (.object fields) (.object fields') ↔
      List.Forall₂ Same (fields.map Prod.snd) (fields'.map Prod.snd) := by
  constructor
  · intro h
    cases h with
    | object order listed values =>
      rw [eq_of_perm order (names.symm.trans listed) (names ▸ distinct)]
      exact values
  · exact .object (.refl _) names

@[simp] theorem same_tagged {tag tag' : String} {content content' : Json} :
    Same (tagged tag content) (tagged tag' content') ↔ tag = tag' ∧ Same content content' := by
  constructor
  · intro h
    cases h with
    | object order names values =>
      rw [List.singleton_perm] at order
      subst order
      simpa using And.intro names values
  · rintro ⟨rfl, content⟩
    simpa [tagged] using content

end

variable {α : Type} {f : α → Json}

/-- The form of the value is the same as that of no other value. -/
def Tells (f : α → Json) (a : α) : Prop := ∀ b, Same (f a) (f b) ↔ a = b

theorem same_array_map {as bs : List α} (each : ∀ a ∈ as, Tells f a) :
    List.Forall₂ Same (as.map f) (bs.map f) ↔ as = bs := by
  induction as generalizing bs with
  | nil => cases bs <;> simp
  | cons a as ih =>
    rw [List.forall_mem_cons] at each
    cases bs with
    | nil => simp
    | cons b bs => simp [each.1 b, ih each.2]

@[simp] theorem same_names {ns ms : List String} : Same (names ns) (names ms) ↔ ns = ms := by
  simp only [names, same_array]
  exact same_array_map fun n _ m => same_string

/-- What may be absent is told, if its form is never that of what is absent. -/
theorem Tells.ofOption {o : Option α} (inner : ∀ a ∈ o, Tells f a) (present : ∀ a, f a ≠ .null) :
    Tells (ofOption f) o := by
  intro o'
  cases o with
  | none => cases o' <;> simp [Json.ofOption, present]
  | some a =>
    cases o' with
    | none => simp [Json.ofOption, present]
    | some b => simp [Json.ofOption, inner a rfl b]

theorem Tells.field {a : α} (name : String) (h : Tells f a) :
    Tells (fun a => .object [(name, f a)]) a := by
  intro b
  simp [h b]

/-- A list under a name is told if its items are. -/
theorem Tells.listed {as : List α} (name : String) (each : ∀ a ∈ as, Tells f a) :
    Tells (fun as => .object [(name, .array (as.map f))]) as := by
  intro bs
  simp [same_array_map each]

end SqlQuery.Json
