import SqlQuery.Grammar.Value
import SqlQuery.Proofs.Rule.Triple
import SqlQuery.Tree.Walk

/-!
Atoms: the parameters and the values of literals, in tokens and in the nodes read from them. A node
yields what was read for it if it holds the same atoms, and its parameters in the same order.
-/

namespace SqlQuery

inductive Atom where
  | parameter (name : String)
  | literal (value : Literal)
  deriving DecidableEq, Repr

def Atom.parameter? : Atom → Option String
  | parameter name => some name
  | literal _ => none

def Token.atoms (t : Token) : List Atom :=
  match t.kind with
  | .parameter => [.parameter t.text]
  | .literal => [.literal (.ofText t.text)]
  | .escapedString =>
    [.literal (.string (unquote (t.text.toList.dropWhile (· != '\x27'))))]
  | _ => []

def Token.parameters (ts : List Token) : List String :=
  (ts.flatMap Token.atoms).filterMap Atom.parameter?

/-- What a node holds itself. The keywords `null`, `true` and `false` are no literals here. -/
def Node.ownAtoms : Node → List Atom
  | .expr (.parameter name) => [.parameter name]
  | .expr (.literal (.number text)) => [.literal (.number text)]
  | .expr (.literal (.string value)) => [.literal (.string value)]
  | _ => []

def Node.atoms (n : Node) : List Atom := n.walk.flatMap Node.ownAtoms

/-- What each of the things has at most one of is picked out of all that they have. -/
theorem filterMap_flatMap_of {α β γ : Type} {f : α → List β} {g : β → Option γ} {h : α → Option γ}
    (own : ∀ a, (f a).filterMap g = (h a).toList) (as : List α) :
    (as.flatMap f).filterMap g = as.filterMap h := by
  induction as with
  | nil => rfl
  | cons a as ih =>
    rw [List.flatMap_cons, List.filterMap_append, ih, own, List.filterMap_cons]
    cases h a <;> rfl

/-- The names of the parameters in the order of the walk. -/
def Node.parameters (n : Node) : List String := n.atoms.filterMap Atom.parameter?

theorem Node.atoms_eq (n : Node) :
    n.atoms = n.ownAtoms ++ n.children.flatMap fun c => c.2.atoms := by
  rw [Node.atoms, Node.walk_eq, List.flatMap_cons, List.flatMap_assoc]
  rfl

/-- The number that an anonymous parameter has for its name. -/
def ordinalOf (name : String) : Nat := Nat.ofDigitChars 10 name.toList 0

def parametersOf (e : Option Expr) : List String := e.toList.flatMap fun e => (Node.expr e).parameters

/-- The parameters of the limit come before those of the offset. -/
def Limit.InOrder (l : Limit) : Prop :=
  ∀ x ∈ parametersOf l.limit, ∀ y ∈ parametersOf l.offset, ordinalOf x < ordinalOf y

/-- Every limit clause in the node is in order. -/
def Node.InOrder (n : Node) : Prop := ∀ l, Node.limit l ∈ n.walk → l.InOrder

theorem Node.inOrder_child {n : Node} (h : n.InOrder) {c : Child} (mem : c ∈ n.children) :
    c.2.InOrder := by
  intro t inside
  refine h t ?_
  rw [Node.walk_eq]
  exact List.mem_cons_of_mem _ (List.mem_flatMap.2 ⟨c, mem, inside⟩)

theorem Node.inOrder_limit {l : Limit} (h : (Node.limit l).InOrder) : l.InOrder := by
  refine h l ?_
  rw [Node.walk_eq]
  exact List.mem_cons_self

def Increasing (names : List String) : Prop := names.Pairwise fun x y => ordinalOf x < ordinalOf y

/--
From the first tokens on to the last ones, these nodes have been read. The order is only kept where
the parameters are numbered, since a limit clause may have been written with its offset first.
-/
structure Yields (ts : List Token) (ns : List Node) (rest : List Token) : Prop where
  same : (ts.flatMap Token.atoms).Perm (ns.flatMap Node.atoms ++ rest.flatMap Token.atoms)
  order : Increasing (Token.parameters ts) → (∀ n ∈ ns, n.InOrder) →
    Token.parameters ts = ns.flatMap Node.parameters ++ Token.parameters rest
  suffix : rest <:+ ts

theorem Token.parameters_append (a b : List Token) :
    parameters (a ++ b) = parameters a ++ parameters b := by
  simp [parameters]

theorem Increasing.of_suffix {ts rest : List Token} (h : Increasing (Token.parameters ts))
    (suffix : rest <:+ ts) : Increasing (Token.parameters rest) := by
  obtain ⟨front, rfl⟩ := suffix
  rw [Token.parameters_append] at h
  exact (List.pairwise_append.1 h).2.1

namespace Yields

variable {ts mid rest : List Token} {ns ms : List Node}

theorem refl (ts : List Token) : Yields ts [] ts :=
  ⟨by simp, by simp, List.suffix_rfl⟩

theorem trans (h : Yields ts ns mid) (h' : Yields mid ms rest) : Yields ts (ns ++ ms) rest where
  same := by
    rw [List.flatMap_append, List.append_assoc]
    exact h.same.trans (h'.same.append_left _)
  order := by
    intro increasing ordered
    have later := h'.order (increasing.of_suffix h.suffix) fun n mem => ordered n (by simp [mem])
    rw [h.order increasing fun n mem => ordered n (by simp [mem]), later]
    simp
  suffix := h'.suffix.trans h.suffix

/-- Passing over a token without an atom. -/
theorem skip {t : Token} (h : Yields ts ns (t :: rest)) (plain : t.atoms = []) :
    Yields ts ns rest where
  same := by simpa [plain] using h.same
  order := by
    intro increasing ordered
    simpa [Token.parameters, plain] using h.order increasing ordered
  suffix := (List.suffix_cons t rest).trans h.suffix

/-- Reading a token for a node that holds the same. -/
theorem read {t : Token} {n : Node} (h : Yields ts ns (t :: rest)) (same : n.atoms = t.atoms) :
    Yields ts (ns ++ [n]) rest where
  same := by simpa [same] using h.same
  order := by
    intro increasing ordered
    have before := h.order increasing fun m mem => ordered m (by simp [mem])
    simpa [Token.parameters, Node.parameters, same] using before
  suffix := (List.suffix_cons t rest).trans h.suffix

/-- The nodes read last may be put for others that hold the same. -/
theorem replace {start ks : List Node} (h : Yields ts (start ++ ns) rest)
    (atoms : ks.flatMap Node.atoms = ns.flatMap Node.atoms)
    (ordered : (∀ k ∈ ks, k.InOrder) → ∀ n ∈ ns, n.InOrder) : Yields ts (start ++ ks) rest where
  same := by simpa [atoms] using h.same
  order := by
    intro increasing inOrder
    have parameters : ks.flatMap Node.parameters = ns.flatMap Node.parameters := by
      have names := congrArg (List.filterMap Atom.parameter?) atoms
      rw [List.filterMap_flatMap, List.filterMap_flatMap] at names
      exact names
    rw [List.flatMap_append, parameters, ← List.flatMap_append]
    refine h.order increasing ?_
    intro n mem
    rcases List.mem_append.1 mem with before | last
    · exact inOrder n (List.mem_append_left _ before)
    · exact ordered (fun k kmem => inOrder k (List.mem_append_right _ kmem)) n last
  suffix := h.suffix

/-- Nodes that hold no atom may be added. -/
theorem leaves {ks : List Node} (h : Yields ts ns rest) (plain : ks.flatMap Node.atoms = []) :
    Yields ts (ns ++ ks) rest := by
  have start : Yields ts (ns ++ []) rest := by simpa using h
  exact start.replace (by simpa using plain) (by simp)

theorem leaf {n : Node} (h : Yields ts ns rest) (plain : n.atoms = []) :
    Yields ts (ns ++ [n]) rest :=
  h.leaves (by simpa using plain)

/-- The parts of a node read last make up the node. -/
theorem node {start : List Node} {n : Node} (h : Yields ts (start ++ ns) rest)
    (own : n.ownAtoms = [])
    (held : (n.children.map Prod.snd).flatMap Node.atoms = ns.flatMap Node.atoms)
    (parts : ∀ m ∈ ns, m ∈ n.children.map Prod.snd) : Yields ts (start ++ [n]) rest := by
  refine h.replace ?_ ?_
  · rw [List.flatMap_singleton, Node.atoms_eq, own, List.nil_append, ← held, List.flatMap_map]
  · intro ordered m mem
    obtain ⟨c, child, rfl⟩ := List.mem_map.1 (parts m mem)
    exact Node.inOrder_child (ordered n (by simp)) child

end Yields

theorem Node.atoms_identifier (name : String) : (Node.identifier name).atoms = [] := by
  rw [Node.atoms_eq]
  rfl

theorem Node.atoms_raw (text : String) : (Node.expr (.raw text)).atoms = [] := by
  rw [Node.atoms_eq]
  rfl

theorem Node.atoms_literal (text : String) :
    (Node.expr (.literal (.ofText text))).atoms = [.literal (.ofText text)] := by
  rw [Node.atoms_eq]
  unfold Literal.ofText
  split <;> simp [Node.ownAtoms, Node.children, Expr.children]

theorem Node.atoms_parameter (name : String) :
    (Node.expr (.parameter name)).atoms = [.parameter name] := by
  rw [Node.atoms_eq]
  rfl

theorem Node.atoms_ofSpecified (text : String) : (Node.expr (.ofSpecified text)).atoms =
    [.literal (.string (unquote (text.toList.dropWhile (· != '\x27'))))] := by
  rw [Node.atoms_eq]
  simp only [Expr.ofSpecified, Node.children, Expr.children, List.flatMap_cons, Node.atoms_raw]
  rw [Node.atoms_eq]
  rfl

theorem Node.atoms_column (ref : ColumnRef) : (Node.expr (.column ref)).atoms = [] := by
  rw [Node.atoms_eq]
  simp [Node.ownAtoms, Node.children, Expr.children, Child.each, Node.atoms_identifier]

theorem Node.atoms_table (ref : TableRef) : (Node.table ref).atoms = [] := by
  rw [Node.atoms_eq]
  simp [Node.ownAtoms, Node.children, Child.each, Node.atoms_identifier]

theorem Node.atoms_sourceAlias (a : SourceAlias) : (Node.sourceAlias a).atoms = [] := by
  rw [Node.atoms_eq]
  simp [Node.ownAtoms, Node.children, Child.each, Node.atoms_identifier]

namespace Rule

variable {α β : Type}

/-- The rule reads these nodes. -/
def Reads (r : Rule α) (f : α → List Node) : Prop :=
  ∀ ts ns, Triple (Yields ts ns) r fun a => Yields ts (ns ++ f a)

/-- The rule reads no atom. -/
def Quiet (r : Rule α) : Prop := r.Reads fun _ => []

theorem Quiet.bind {r : Rule α} {g : α → Rule β} {ts : List Token} {ns : List Node}
    {Q : β → List Token → Prop} (quiet : r.Quiet)
    (next : ∀ a, Triple (Yields ts ns) (g a) Q) : Triple (Yields ts ns) (r >>= g) Q := by
  refine (quiet ts ns).bind ?_
  intro a
  exact (next a).pre fun rest h => by simpa using h

theorem Quiet.ret (a : α) : (pure a : Rule α).Quiet := by
  intro ts ns
  exact Triple.ret fun rest h => by simpa using h

theorem Quiet.eat {p : Token → Bool} (plain : ∀ t, p t = true → t.atoms = []) : (eat p).Quiet := by
  intro ts ns
  refine Triple.eat ?_ ?_
  · intro t rest h accepted
    simpa using h.skip (plain t accepted)
  · intro rest h _
    simpa using h

theorem Quiet.expect {f : Token → Option α} {what : String}
    (plain : ∀ t a, f t = some a → t.atoms = []) : (expect f what).Quiet := by
  intro ts ns
  refine Triple.expect ?_
  intro t rest a h accepted
  simpa using h.skip (plain t a accepted)

theorem Quiet.accept {f : Token → Option α} (plain : ∀ t a, f t = some a → t.atoms = []) :
    (accept f).Quiet := by
  intro ts ns
  refine Triple.accept ?_ ?_
  · intro t rest a h accepted
    simpa using h.skip (plain t a accepted)
  · intro rest h _
    simpa using h

theorem Quiet.look (n : Nat) (p : Token → Bool) : (look n p).Quiet := by
  intro ts ns
  exact Triple.look fun rest h => by simpa using h

theorem Quiet.require {p : Token → Bool} {what : String}
    (plain : ∀ t, p t = true → t.atoms = []) : (require p what).Quiet := by
  refine Quiet.expect ?_
  intro t a accepted
  by_cases h : p t = true
  · exact plain t h
  · simp [h] at accepted

theorem Reads.after {mark : Rule Bool} {r : Rule α} {f : α → List Node} (quiet : mark.Quiet)
    (reads : r.Reads f) : (after mark r).Reads fun o => o.toList.flatMap f := by
  intro ts ns
  refine Triple.after (R := Yields ts ns) ?_ ?_
  · refine (quiet ts ns).post ?_
    intro b rest h
    cases b <;> simpa using h
  · exact (reads ts ns).post fun a rest h => by simpa using h

theorem Reads.many {r : Rule (Option α)} {f : α → List Node}
    (reads : r.Reads fun o => o.toList.flatMap f) : (many r).Reads fun as => as.flatMap f := by
  intro ts ns
  refine (Triple.many (I := fun as => Yields ts (ns ++ as.flatMap f)) ?_).pre ?_
  · intro as
    exact (reads ts _).post fun o rest h => by simpa using h
  · intro rest h
    simpa using h

theorem Reads.commaList {r : Rule α} {f : α → List Node} (reads : r.Reads f) :
    (commaList r).Reads fun as => as.flatMap f := by
  intro ts ns
  refine Triple.commaList (I := fun as => Yields ts (ns ++ as.flatMap f)) ?_ ?_ ?_
  · exact (reads ts ns).post fun a rest h => by simpa using h
  · intro as t rest comma h
    exact h.skip (by simp [Token.atoms, comma])
  · intro as
    exact (reads ts _).post fun a rest h => by simpa using h

theorem Reads.commaMap {r : Rule α} {g : α → Node} (reads : r.Reads fun a => [g a]) :
    (Rule.commaList r).Reads fun as => as.map g := by
  intro ts ns
  refine (Reads.commaList reads ts ns).post ?_
  intro as rest h
  change Yields ts (ns ++ as.map g) rest
  rwa [List.map_eq_flatMap]

theorem Reads.afterMap {mark : Rule Bool} {r : Rule α} {g : α → Node} (quiet : mark.Quiet)
    (reads : r.Reads fun a => [g a]) : (Rule.after mark r).Reads fun o => o.toList.map g := by
  intro ts ns
  refine (Reads.after quiet reads ts ns).post ?_
  intro o rest h
  change Yields ts (ns ++ o.toList.map g) rest
  rwa [List.map_eq_flatMap]

theorem Reads.manyMap {r : Rule (Option α)} {g : α → Node}
    (reads : r.Reads fun o => o.toList.map g) : (Rule.many r).Reads fun as => as.map g := by
  intro ts ns
  refine (Reads.many (f := fun a => [g a]) ?_ ts ns).post ?_
  · intro ts ns
    refine (reads ts ns).post fun o rest h => ?_
    change Yields ts (ns ++ o.toList.flatMap fun a => [g a]) rest
    rwa [← List.map_eq_flatMap]
  · intro as rest h
    change Yields ts (ns ++ as.map g) rest
    rwa [List.map_eq_flatMap]

theorem Quiet.commaList {r : Rule α} (quiet : r.Quiet) : (commaList r).Quiet := by
  intro ts ns
  refine (Reads.commaList quiet ts ns).post ?_
  intro as rest h
  have none : as.flatMap (fun _ => ([] : List Node)) = [] := List.flatMap_eq_nil_iff.2 fun _ _ => rfl
  change Yields ts (ns ++ as.flatMap fun _ => []) rest at h
  rwa [none] at h

end Rule

end SqlQuery
