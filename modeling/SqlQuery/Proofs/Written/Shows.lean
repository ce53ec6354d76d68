import Mathlib.Data.List.Forall2
import SqlQuery.Proofs.Parameter.Order
import SqlQuery.Proofs.Tree.Below
import SqlQuery.Proofs.Written.Marks

/-!
Marks that have the parameters of some nodes, in the order of the nodes, and no question mark in their
texts: how such marks are put together.
-/

namespace SqlQuery

open Child

def Literal.texts : Literal → List String
  | .number text => [text]
  | .string value => [value]
  | _ => []

/-- The texts that a node holds itself. -/
def Node.ownTexts : Node → List String
  | .identifier name => [name]
  | .expr (.raw text) => [text]
  | .expr (.literal value) => value.texts
  | .expr (.parameter name) => [name]
  | _ => []

namespace Mark

def texts : Mark → List String
  | .blank => []
  | .plain text | .name text | .call text | .parameter text => [text]
  | .literal value => value.texts
  | .specified specifier value => specifier :: value.texts

def parameterName? : Mark → Option String
  | .parameter text => some text
  | _ => none

/-- No text in the mark has a question mark. -/
def IsClear (m : Mark) : Prop := ∀ text ∈ m.texts, '?' ∉ text.toList

/-- No text in the marks has a question mark. -/
def AllClear (ms : List Mark) : Prop := ∀ m ∈ ms, m.IsClear

/-- The names of the parameters among the marks. -/
def parameters (ms : List Mark) : List String := ms.filterMap parameterName?

section

variable {m : Mark} {ms more : List Mark} {parts : List (List Mark)}

@[simp] theorem isClear_blank : IsClear .blank := nofun

@[simp] theorem isClear_plain {text : String} : IsClear (.plain text) ↔ '?' ∉ text.toList := by
  simp [IsClear, texts]

@[simp] theorem isClear_name {text : String} : IsClear (.name text) ↔ '?' ∉ text.toList := by
  simp [IsClear, texts]

@[simp] theorem allClear_nil : AllClear [] := nofun

@[simp] theorem allClear_cons : AllClear (m :: ms) ↔ m.IsClear ∧ AllClear ms := List.forall_mem_cons

@[simp] theorem allClear_append : AllClear (ms ++ more) ↔ AllClear ms ∧ AllClear more :=
  List.forall_mem_append

@[simp] theorem parameters_nil : parameters [] = [] := rfl

@[simp] theorem parameters_cons :
    parameters (m :: ms) = m.parameterName?.toList ++ parameters ms := by
  rw [parameters, List.filterMap_cons]
  cases m.parameterName? <;> rfl

@[simp] theorem parameters_append : parameters (ms ++ more) = parameters ms ++ parameters more :=
  List.filterMap_append

end

/-- Joins parts with marks that have no question mark and are no parameters. -/
structure IsJoin (join : List (List Mark) → List Mark) : Prop where
  clear : ∀ parts, (∀ part ∈ parts, AllClear part) → AllClear (join parts)
  same : ∀ parts, parameters (join parts) = parts.flatMap parameters

theorem isJoin_flatten : IsJoin List.flatten where
  clear parts all := by
    intro m mem
    obtain ⟨part, inside, mem⟩ := List.mem_flatten.1 mem
    exact all part inside m mem
  same parts := by
    induction parts with
    | nil => rfl
    | cons part parts ih => simp [ih]

theorem isJoin_spaced : IsJoin spaced where
  clear parts all := by
    induction parts with
    | nil => exact allClear_nil
    | cons part parts ih =>
      obtain ⟨first, others⟩ := List.forall_mem_cons.1 all
      cases parts with
      | nil => simpa using first
      | cons next parts =>
        rw [spaced_cons_cons]
        exact allClear_append.2 ⟨first, allClear_cons.2 ⟨isClear_blank, ih others⟩⟩
  same parts := by
    induction parts with
    | nil => rfl
    | cons part parts ih =>
      cases parts with
      | nil => simp
      | cons next parts =>
        rw [spaced_cons_cons, parameters_append, parameters_cons, ih]
        rfl

theorem isJoin_commaSeparated : IsJoin commaSeparated where
  clear parts all := by
    induction parts with
    | nil => exact allClear_nil
    | cons part parts ih =>
      obtain ⟨first, others⟩ := List.forall_mem_cons.1 all
      cases parts with
      | nil => simpa using first
      | cons next parts =>
        rw [commaSeparated_cons_cons]
        simpa using ⟨first, ih others⟩
  same parts := by
    induction parts with
    | nil => rfl
    | cons part parts ih =>
      cases parts with
      | nil => simp
      | cons next parts =>
        rw [commaSeparated_cons_cons, parameters_append, parameters_cons, parameters_cons, ih]
        rfl

theorem isJoin_clauses : IsJoin clauseMarks where
  clear parts all := isJoin_spaced.clear _ fun part mem => all part (List.mem_of_mem_filter mem)
  same parts := by
    rw [clauseMarks, isJoin_spaced.same]
    induction parts with
    | nil => rfl
    | cons part parts ih => cases part <;> simp [ih]

theorem IsJoin.inParens {join : List (List Mark) → List Mark} (h : IsJoin join) :
    IsJoin fun parts => inParens (join parts) where
  clear parts all := by simpa [SqlQuery.inParens] using h.clear parts all
  same parts := by simp [SqlQuery.inParens, parameterName?, h.same]

end Mark

open Mark

namespace Node

/-- The node and all below it hold no text with a question mark. -/
def IsClear (n : Node) : Prop := ∀ m ∈ n.walk, ∀ text ∈ m.ownTexts, '?' ∉ text.toList

theorem isClear_iff {n : Node} :
    n.IsClear ↔ (∀ text ∈ n.ownTexts, '?' ∉ text.toList) ∧ ∀ c ∈ n.children, c.2.IsClear :=
  forall_mem_walk_children

theorem parameters_of_children {n : Node} (other : n.parameterName? = none) :
    n.parameters = n.children.flatMap fun c => c.2.parameters := by
  rw [parameters, atoms_eq, List.filterMap_append, ownAtoms_parameter, other, List.filterMap_flatMap]
  rfl

/-- The marks of the node have its parameters in the order of the walk, and if asked no question mark. -/
structure Shown (asked : Prop) (d : Dialect) (n : Node) : Prop where
  clear : asked → AllClear (n.marks d)
  same : n.parameters = Mark.parameters (n.marks d)

end Node

theorem Node.parameters_identifier (name : String) : (Node.identifier name).parameters = [] :=
  parameters_of_children rfl

theorem Node.parameters_sourceAlias (a : SourceAlias) : (Node.sourceAlias a).parameters = [] := by
  rw [parameters_of_children rfl]
  simp [children, each, parameters_identifier]

theorem Node.parameters_raw (text : String) : (Node.expr (.raw text)).parameters = [] :=
  parameters_of_children rfl

variable {asked : Prop} {d : Dialect}

/-- The parts have the parameters of these nodes in the same order, and if asked no question mark. -/
structure Shows (asked : Prop) (parts : List (List Mark)) (cs : List Child) : Prop where
  clear : asked → ∀ part ∈ parts, AllClear part
  same : cs.flatMap (fun c => c.2.parameters) = parts.flatMap Mark.parameters

namespace Shows

variable {parts more : List (List Mark)} {cs others : List Child} {r : String} {n : Node}

theorem nil : Shows asked [] [] := ⟨fun _ => nofun, rfl⟩

theorem append (h : Shows asked parts cs) (h' : Shows asked more others) :
    Shows asked (parts ++ more) (cs ++ others) where
  clear given := List.forall_mem_append.2 ⟨h.clear given, h'.clear given⟩
  same := by rw [List.flatMap_append, List.flatMap_append, h.same, h'.same]

/-- A node that these marks stand for. -/
theorem marked {ms : List Mark} (clear : asked → AllClear ms) (same : n.parameters = Mark.parameters ms)
    (rest : Shows asked parts cs) : Shows asked (ms :: parts) ((r, n) :: cs) where
  clear given := List.forall_mem_cons.2 ⟨clear given, rest.clear given⟩
  same := by rw [List.flatMap_cons, List.flatMap_cons, same, rest.same]

theorem node (h : n.Shown asked d) (rest : Shows asked parts cs) :
    Shows asked (n.marks d :: parts) ((r, n) :: cs) := .marked h.clear h.same rest

/-- A part that stands for no node. -/
theorem words {ms : List Mark} (clear : asked → AllClear ms) (none : Mark.parameters ms = [])
    (rest : Shows asked parts cs) : Shows asked (ms :: parts) cs where
  clear given := List.forall_mem_cons.2 ⟨clear given, rest.clear given⟩
  same := by rw [List.flatMap_cons, none, rest.same, List.nil_append]

theorem keyword (text : String) (clear : '?' ∉ text.toList) (rest : Shows asked parts cs) :
    Shows asked ([.plain text] :: parts) cs :=
  .words (fun _ => by simpa using clear) rfl rest

theorem keywords {words : List String} (clear : ∀ word ∈ words, '?' ∉ word.toList) :
    Shows asked (words.map fun word => [.plain word]) [] := by
  induction words with
  | nil => exact .nil
  | cons word words ih =>
    obtain ⟨first, others⟩ := List.forall_mem_cons.1 clear
    exact .keyword word first (ih others)

/-- A node without parameters that other marks stand for. -/
theorem silent (none : n.parameters = []) (rest : Shows asked parts cs) :
    Shows asked parts ((r, n) :: cs) where
  clear := rest.clear
  same := by rw [List.flatMap_cons, none, rest.same, List.nil_append]

theorem join {f : List (List Mark) → List Mark} (isJoin : IsJoin f) (h : Shows asked parts cs)
    (rest : Shows asked more others) : Shows asked (f parts :: more) (cs ++ others) where
  clear given := List.forall_mem_cons.2 ⟨isJoin.clear parts (h.clear given), rest.clear given⟩
  same := by
    rw [List.flatMap_append, List.flatMap_cons, isJoin.same, h.same, rest.same]

theorem joined {f : List (List Mark) → List Mark} (isJoin : IsJoin f) (h : Shows asked parts cs) :
    Shows asked [f parts] cs := by
  simpa using h.join isJoin .nil

/-- A part that goes on with what others stand for. -/
theorem extend {ms ms' : List Mark} (h : Shows asked [ms] cs) (h' : Shows asked [ms'] others) :
    Shows asked [ms ++ ms'] (cs ++ others) := by
  simpa using (h.append h').joined isJoin_flatten

theorem parens {ms : List Mark} (h : Shows asked [ms] cs) : Shows asked [inParens ms] cs := by
  simpa using h.joined isJoin_flatten.inParens

theorem each {α : Type} {node : α → Node} {as : List α} (h : ∀ a ∈ as, (node a).Shown asked d) :
    Shows asked (as.map fun a => (node a).marks d) (Child.each r node as) := by
  induction as with
  | nil => exact .nil
  | cons a as ih =>
    obtain ⟨first, others⟩ := List.forall_mem_cons.1 h
    exact .node first (ih others)

theorem optional {α : Type} (r : String) {node : α → Node} (f : Option α → List Mark)
    {o : Option α} (absent : f none = []) (same : ∀ a, f (some a) = (node a).marks d)
    (h : ∀ a ∈ o, (node a).Shown asked d) : Shows asked [f o] (Child.maybe r node o) := by
  cases o with
  | none => exact absent ▸ .words (fun _ => allClear_nil) rfl .nil
  | some a => exact same a ▸ .node (h a rfl) .nil

end Shows

namespace Node

/-- The node is shown where its children are, in their order. -/
theorem Shown.join {n : Node} {f : List (List Mark) → List Mark} {parts : List (List Mark)}
    (isJoin : IsJoin f) (h : Shows asked parts n.children) (other : n.parameterName? = none)
    (same : n.marks d = f parts) : n.Shown asked d where
  clear given := same ▸ isJoin.clear parts (h.clear given)
  same := by rw [parameters_of_children other, h.same, same, isJoin.same]

theorem Shown.trimmed {text : String} (h : (Node.expr (.raw text)).Shown asked d)
    (given : asked) : '?' ∉ (Text.trim text).toList := by
  simpa [marks, Expr.marks, rawMark] using h.clear given

theorem Shown.query {q : Query} (h : (Node.expr (.inlineQuery q)).Shown asked d) :
    (asked → AllClear (q.marks d)) ∧
      (Node.expr (.inlineQuery q)).parameters = Mark.parameters (q.marks d) := by
  obtain ⟨clear, same⟩ := h
  simp only [marks, Expr.marks, inParens, List.cons_append, allClear_cons, allClear_append,
    parameters_cons, parameters_append] at clear same
  exact ⟨fun given => (clear given).2.1, by simpa [Mark.parameterName?] using same⟩

end Node

namespace Shows

variable {parts : List (List Mark)} {cs : List Child} {r : String}

theorem raw {text : String} (h : (Node.expr (.raw text)).Shown asked d) (rest : Shows asked parts cs) :
    Shows asked ([rawMark text] :: parts) ((r, .expr (.raw text)) :: cs) := .node h rest

theorem silentEach {α : Type} {node : α → Node} (none : ∀ a, (node a).parameters = [])
    (as : List α) : Shows asked [] (Child.each r node as) := by
  induction as with
  | nil => exact .nil
  | cons a as ih => exact .silent (none a) ih

/-- Names in front of another mark. -/
theorem qualified {m : Mark} {names : List String} (clear : asked → m.IsClear)
    (other : m.parameterName? = none) (h : ∀ name ∈ names, (Node.identifier name).Shown asked d)
    (rest : Shows asked parts cs) :
    Shows asked (qualify names m :: parts) (Child.each r .identifier names ++ cs) := by
  have marks : (asked → AllClear (qualify names m)) ∧ Mark.parameters (qualify names m) = [] := by
    induction names with
    | nil => simpa [qualify, List.intercalate, other] using clear
    | cons name names ih =>
      obtain ⟨first, others⟩ := List.forall_mem_cons.1 h
      obtain ⟨clear, none⟩ := ih others
      rw [qualify_cons]
      refine ⟨fun given => ?_, by simp [none, Mark.parameterName?]⟩
      have own : (Mark.name name).IsClear := first.clear given _ List.mem_cons_self
      simp [clear given, own]
  exact .words marks.1 marks.2 ((silentEach Node.parameters_identifier names).append rest)

theorem direction (direction : SortDirection) : Shows asked direction.marks [] := by
  cases direction with
  | asc => exact .nil
  | desc => exact .keyword _ (by decide) .nil

theorem nulls (nulls : Option NullsPosition) : Shows asked (NullsPosition.marks nulls) [] := by
  cases nulls with
  | none => exact .nil
  | some position =>
    have word : '?' ∉ position.text.toList := by cases position <;> decide
    exact .keyword _ word .nil

theorem materialized (materialized : Option Bool) : Shows asked (materializedMarks materialized) [] := by
  rcases materialized with _ | _ | _
  · exact .nil
  · exact .keyword _ (by decide) .nil
  · exact .keyword _ (by decide) .nil

theorem keyworded (keyword : String) (clear : '?' ∉ keyword.toList) {r : String}
    {e : Option Expr} (h : ∀ e' ∈ e, (Node.expr e').Shown asked d) :
    Shows asked [keywordedMarks d keyword e] (maybe r .expr e) := by
  cases e with
  | none => exact .words (fun _ => allClear_nil) rfl .nil
  | some e => exact .joined isJoin_spaced (.keyword keyword clear <| .node (h e rfl) .nil)

/-- A keyword and a list with commas. -/
theorem listed {α : Type} {node : α → Node} {as : List α} (keyword : String)
    (clear : '?' ∉ keyword.toList) (h : ∀ a ∈ as, (node a).Shown asked d) :
    Shows asked [[.plain keyword], commaSeparated (as.map fun a => (node a).marks d)]
      (Child.each r node as) :=
  .keyword keyword clear ((each h).joined isJoin_commaSeparated)

end Shows

end SqlQuery
