import SqlQuery.Grammar.Expression
import SqlQuery.Proofs.Tree.Json

/-!
Two trees that are the same but for one place. Their JSON forms say so for all kinds of nodes alike.
-/

namespace SqlQuery

variable {α : Type}

/-- The values are the same but for one place, where the relation holds of what stands there. -/
inductive Json.DiffersAt (R : Json → Json → Prop) : Json → Json → Prop
  | here {j j' : Json} : R j j' → DiffersAt R j j'
  | item {j j' : Json} (before after : List Json) : DiffersAt R j j' →
    DiffersAt R (.array (before ++ j :: after)) (.array (before ++ j' :: after))
  | field {j j' : Json} (before : List (String × Json)) (key : String)
    (after : List (String × Json)) : DiffersAt R j j' →
    DiffersAt R (.object (before ++ (key, j) :: after)) (.object (before ++ (key, j') :: after))

/-- Where the relation never holds nothing differs. -/
theorem Json.DiffersAt.elim {R : Json → Json → Prop} {j j' : Json} (h : DiffersAt R j j')
    (never : ∀ j j', ¬R j j') : False := by
  induction h with
  | here h => exact never _ _ h
  | item _ _ _ ih => exact ih
  | field _ _ _ _ ih => exact ih

/-- One of the items differs. -/
inductive OneOf (D : α → α → Prop) : List α → List α → Prop
  | head {a a' : α} (as : List α) : D a a' → OneOf D (a :: as) (a' :: as)
  | tail {as as' : List α} (a : α) : OneOf D as as' → OneOf D (a :: as) (a :: as')

/-- What is there differs. -/
inductive Found (D : α → α → Prop) : Option α → Option α → Prop
  | mk {a a' : α} : D a a' → Found D (some a) (some a')

section

variable {D : α → α → Prop} {as as' : List α}

theorem OneOf.elim (h : OneOf D as as') (never : ∀ a a', ¬D a a') : False := by
  induction h with
  | head _ h => exact never _ _ h
  | tail _ _ ih => exact ih

theorem OneOf.mono {E : α → α → Prop} (h : OneOf D as as') (weaker : ∀ a a', D a a' → E a a') :
    OneOf E as as' := by
  induction h with
  | head as h => exact .head as (weaker _ _ h)
  | tail a _ ih => exact .tail a ih

end

/-- What differs in its JSON form. -/
def DiffersIn (R : Json → Json → Prop) (f : α → Json) (a a' : α) : Prop :=
  Json.DiffersAt R (f a) (f a')

section Places

variable {R : Json → Json → Prop}

/-- Items of which one differs, in a list that has the forms of the items. -/
theorem Json.DiffersAt.items {f : α → Json} {g : List α → List Json} {as as' : List α}
    (cons : ∀ a as, g (a :: as) = f a :: g as) (h : OneOf (DiffersIn R f) as as') :
    Json.DiffersAt R (.array (g as)) (.array (g as')) := by
  have split : ∃ before j j' after, g as = before ++ j :: after ∧ g as' = before ++ j' :: after ∧
      Json.DiffersAt R j j' := by
    induction h with
    | head as h => exact ⟨[], _, _, _, cons _ _, cons _ _, h⟩
    | tail a _ ih =>
      obtain ⟨before, j, j', after, same, same', h⟩ := ih
      exact ⟨f a :: before, j, j', after, by rw [cons, same]; rfl, by rw [cons, same']; rfl, h⟩
  obtain ⟨before, j, j', after, same, same', h⟩ := split
  rw [same, same']
  exact .item before after h

/-- A member that is given by its place among the members. -/
theorem Json.DiffersAt.member {members : List (String × Json)} {key : String} {j j' : Json} (i : Nat)
    (here : members[i]? = some (key, j)) (h : Json.DiffersAt R j j') :
    Json.DiffersAt R (.object members) (.object (members.set i (key, j'))) := by
  obtain ⟨inside, at_⟩ := List.getElem?_eq_some_iff.1 here
  have split : members = members.take i ++ (key, j) :: members.drop (i + 1) := by
    rw [← at_, List.getElem_cons_drop, List.take_append_drop]
  have changed : members.set i (key, j') = members.take i ++ (key, j') :: members.drop (i + 1) := by
    rw [List.set_eq_take_append_cons_drop, if_pos inside]
  have placed := Json.DiffersAt.field (members.take i) key (members.drop (i + 1)) h
  rwa [← split, ← changed] at placed

theorem Json.DiffersAt.exprs {es es' : List Expr} (h : OneOf (DiffersIn R Expr.toJson) es es') :
    Json.DiffersAt R (.array (exprsToJson es)) (.array (exprsToJson es')) :=
  .items (fun _ _ => rfl) h

theorem DiffersIn.through {f g : α → Json} (same : ∀ a, f a = g a) {a a' : α}
    (h : DiffersIn R g a a') : DiffersIn R f a a' := by
  unfold DiffersIn
  rwa [same, same]

end Places

end SqlQuery
