import SqlQuery.Proofs.Rule.Triple

/-!
What a rule makes, if it succeeds, of tokens that all have a property. What it leaves are the last
of its tokens, so the rules that come next may count on the property too.
-/

namespace SqlQuery.Rule

variable {α β : Type} {T : Token → Prop}

/-- On tokens that have the property `T`, of which `P` holds, the rule leaves the last ones of them,
and `Q` holds of these and of what it makes. -/
def Gets (T : Token → Prop) (P : List Token → Prop) (r : Rule α) (Q : α → List Token → Prop) :
    Prop :=
  ∀ ts a rest, (∀ t ∈ ts, T t) → P ts → r ts = .ok (a, rest) → rest <:+ ts ∧ Q a rest

/-- What the rule makes of any tokens that have the property satisfies `Q`. -/
def Makes (T : Token → Prop) (r : Rule α) (Q : α → Prop) : Prop :=
  Gets T (fun _ => True) r fun a _ => Q a

theorem all_suffix {ts rest : List Token} (h : ∀ t ∈ ts, T t) (suffix : rest <:+ ts) :
    ∀ t ∈ rest, T t :=
  fun t mem => h t (suffix.subset mem)

theorem accept_eq_some {f : Token → Option α} {ts rest : List Token} {a : α}
    (h : accept f ts = .ok (some a, rest)) : ∃ t, ts = t :: rest ∧ f t = some a := by
  unfold accept at h
  split at h
  · cases h
  · rename_i found
    cases h
    obtain ⟨t, head, accepted⟩ := Option.bind_eq_some_iff.1 found
    obtain ⟨ts', rfl⟩ := List.head?_eq_some_iff.1 head
    exact ⟨t, rfl, accepted⟩

theorem eat_eq_ok {p : Token → Bool} {ts rest : List Token} {found : Bool}
    (run : eat p ts = .ok (found, rest)) :
    found = false ∧ rest = ts ∨ found = true ∧ ∃ t, ts = t :: rest ∧ p t = true := by
  simp only [eat, map_eq_bind] at run
  obtain ⟨o, mid, ran, last⟩ := bind_eq_ok.1 run
  obtain ⟨rfl, rfl⟩ := pure_eq_ok.1 last
  cases o with
  | none =>
    unfold accept at ran
    split at ran <;> cases ran
    exact .inl ⟨rfl, rfl⟩
  | some a =>
    obtain ⟨t, same, accepted⟩ := accept_eq_some ran
    exact .inr ⟨rfl, t, same, by simpa using accepted⟩

namespace Gets

variable {P V : List Token → Prop} {Q W : α → List Token → Prop} {S : β → List Token → Prop}
  {r : Rule α}

theorem weaken (h : Gets T P r Q) (before : ∀ ts, V ts → P ts)
    (result : ∀ a ts, Q a ts → W a ts) : Gets T V r W := by
  intro ts a rest all hp run
  obtain ⟨suffix, hq⟩ := h ts a rest all (before ts hp) run
  exact ⟨suffix, result a rest hq⟩

theorem post (h : Gets T P r Q) (result : ∀ a ts, Q a ts → W a ts) : Gets T P r W :=
  h.weaken (fun _ hp => hp) result

theorem pre (h : Gets T P r Q) (before : ∀ ts, V ts → P ts) : Gets T V r Q :=
  h.weaken before fun _ _ hq => hq

theorem and {U : List Token → Prop} (first : Gets T P r Q) (second : Gets T U r W) :
    Gets T (fun ts => P ts ∧ U ts) r fun a rest => Q a rest ∧ W a rest := by
  intro ts a rest all hp run
  obtain ⟨suffix, hq⟩ := first ts a rest all hp.1 run
  exact ⟨suffix, hq, (second ts a rest all hp.2 run).2⟩

theorem ret {a : α} (h : ∀ ts, P ts → Q a ts) : Gets T P (pure a) Q := by
  intro ts b rest _ hp run
  obtain ⟨rfl, rfl⟩ := pure_eq_ok.1 run
  exact ⟨List.suffix_refl _, h _ hp⟩

theorem bind {f : α → Rule β} (first : Gets T P r Q) (next : ∀ a, Gets T (Q a) (f a) S) :
    Gets T P (r >>= f) S := by
  intro ts b rest all hp run
  obtain ⟨a, mid, ran, ran'⟩ := bind_eq_ok.1 run
  obtain ⟨suffix, hq⟩ := first ts a mid all hp ran
  obtain ⟨suffix', hs⟩ := next a mid b rest (all_suffix all suffix) hq ran'
  exact ⟨suffix'.trans suffix, hs⟩

theorem map {g : α → β} (h : Gets T P r fun a => S (g a)) : Gets T P (g <$> r) S :=
  h.bind fun _ => ret fun _ hs => hs

theorem ite {c : Prop} [Decidable c] {s : Rule α} (yes : c → Gets T P r Q)
    (no : ¬ c → Gets T P s Q) : Gets T P (if c then r else s) Q := by
  by_cases h : c
  · rw [if_pos h]
    exact yes h
  · rw [if_neg h]
    exact no h

theorem given {C : Prop} (h : C → Gets T (fun _ => True) r Q) : Gets T (fun _ => C) r Q :=
  fun ts a rest all known run => h known ts a rest all trivial run

theorem fail {what : String} : Gets T P (fail what) Q :=
  fun _ _ _ _ _ run => absurd run fail_ne_ok

theorem peek : Gets T P peek fun o ts => P ts ∧ ts.head? = o := by
  intro ts o rest _ hp run
  cases run
  exact ⟨List.suffix_refl _, hp, rfl⟩

theorem look (n : Nat) (p : Token → Bool) :
    Gets T P (look n p) fun b ts => P ts ∧ ts[n]?.any p = b := by
  intro ts b rest _ hp run
  cases run
  exact ⟨List.suffix_refl _, hp, rfl⟩

/-- The next token, if the test accepts it, or else the tokens that are there. -/
theorem accept {f : Token → Option α} (found : ∀ t ts a, T t → P (t :: ts) → f t = some a →
      Q a ts) (missing : ∀ ts, P ts → (∀ t ∈ ts.head?, f t = none) → V ts) :
    Gets T P (accept f) fun o ts => match o with
      | none => V ts
      | some a => Q a ts := by
  intro ts o rest all hp run
  unfold Rule.accept at run
  split at run
  case h_1 none =>
    cases run
    refine ⟨List.suffix_refl _, missing ts hp fun t head => ?_⟩
    simpa [Option.mem_def.1 head] using none
  case h_2 a some =>
    cases run
    obtain ⟨t, head, accepted⟩ := Option.bind_eq_some_iff.1 some
    obtain ⟨ts', rfl⟩ := List.head?_eq_some_iff.1 head
    exact ⟨List.suffix_cons t ts', found t ts' a (all t List.mem_cons_self) hp accepted⟩

theorem eat {p : Token → Bool} {Q : Bool → List Token → Prop}
    (found : ∀ t ts, P (t :: ts) → p t = true → Q true ts)
    (missing : ∀ ts, P ts → Q false ts) : Gets T P (eat p) Q := by
  refine map (post (accept (V := Q false) (Q := fun _ => Q true) (fun t ts a _ hp accepted => ?_)
    fun ts hp _ => missing ts hp) fun o ts h => ?_)
  · by_cases h : p t = true
    · exact found t ts hp h
    · simp [h] at accepted
  · cases o <;> exact h

theorem expect {f : Token → Option α} {what : String}
    (found : ∀ t ts a, T t → P (t :: ts) → f t = some a → Q a ts) : Gets T P (expect f what) Q := by
  refine bind (accept (V := fun _ => True) found fun _ _ _ => trivial) fun o => ?_
  cases o with
  | none => exact fail
  | some a => exact ret fun _ hq => hq

theorem require {p : Token → Bool} {what : String} {Q : Unit → List Token → Prop}
    (found : ∀ t ts, P (t :: ts) → p t = true → Q () ts) : Gets T P (require p what) Q := by
  refine expect fun t ts a _ hp accepted => ?_
  by_cases h : p t = true
  · exact found t ts hp h
  · simp [h] at accepted

end Gets

namespace Makes

variable {P : List Token → Prop} {Q W : α → Prop} {S : β → Prop} {r : Rule α}

theorem anywhere (h : Makes T r Q) : Gets T P r fun a _ => Q a := h.pre fun _ _ => trivial

theorem of_gets {R : α → List Token → Prop} (h : Gets T (fun _ => True) r R)
    (result : ∀ a ts, R a ts → Q a) : Makes T r Q :=
  h.post result

theorem post (h : Makes T r Q) (result : ∀ a, Q a → W a) : Makes T r W :=
  Gets.post h fun a _ => result a

theorem ret {a : α} (h : Q a) : Makes T (pure a) Q := Gets.ret fun _ _ => h

theorem bind {f : α → Rule β} (first : Makes T r Q) (next : ∀ a, Q a → Makes T (f a) S) :
    Makes T (r >>= f) S := by
  refine Gets.bind first fun a => ?_
  intro ts b rest all hq run
  exact next a hq ts b rest all trivial run

/-- A rule that is followed by another whatever it makes. -/
theorem pass {f : α → Rule β} (first : Makes T r fun _ => True) (next : ∀ a, Makes T (f a) S) :
    Makes T (r >>= f) S :=
  first.bind fun a _ => next a

theorem map {g : α → β} (h : Makes T r fun a => S (g a)) : Makes T (g <$> r) S :=
  h.bind fun _ hq => ret hq

theorem ite {c : Prop} [Decidable c] {s : Rule α} (yes : c → Makes T r Q) (no : ¬ c → Makes T s Q) :
    Makes T (if c then r else s) Q :=
  Gets.ite yes no

/-- What a test chooses between. -/
theorem choose {test : Rule Bool} {s : Rule α} (tested : Makes T test fun _ => True)
    (yes : Makes T r Q) (no : Makes T s Q) : Makes T (test >>= fun b => if b then r else s) Q :=
  tested.pass fun _ => ite (fun _ => yes) fun _ => no

theorem fail {what : String} : Makes T (fail what) Q := Gets.fail

theorem look (n : Nat) (p : Token → Bool) : Makes T (look n p) fun _ => True :=
  (Gets.look n p).post fun _ _ _ => trivial

theorem peek : Makes T peek fun o => ∀ t ∈ o, T t := by
  intro ts o rest all _ run
  cases run
  exact ⟨List.suffix_refl _, fun t head => all t (List.mem_of_mem_head? head)⟩

theorem skip : Makes T skip fun _ => True := by
  intro ts a rest _ _ run
  cases run
  exact ⟨List.tail_suffix ts, trivial⟩

theorem accept {f : Token → Option α} :
    Makes T (accept f) fun o => ∀ a ∈ o, ∃ t, T t ∧ f t = some a := by
  refine Gets.post (Gets.accept (Q := fun a _ => ∃ t, T t ∧ f t = some a) (V := fun _ => True)
    (fun t _ a ht _ found => ⟨t, ht, found⟩) fun _ _ _ => trivial) fun o ts h => ?_
  cases o with
  | none => exact nofun
  | some a => exact fun b same => Option.some.inj same ▸ h

theorem eat (p : Token → Bool) : Makes T (eat p) fun _ => True :=
  map (accept.post fun _ _ => trivial)

theorem expect {f : Token → Option α} {what : String} :
    Makes T (expect f what) fun a => ∃ t, T t ∧ f t = some a := by
  refine accept.bind fun o found => ?_
  cases o with
  | none => exact fail
  | some a => exact ret (found a rfl)

theorem require (p : Token → Bool) (what : String) : Makes T (require p what) fun _ => True :=
  expect.post fun _ _ => trivial

theorem upTo {item : Rule (Option α)} (h : Makes T item fun o => ∀ a ∈ o, Q a)
    (bound : List Token) : Makes T (upTo item bound) fun as => ∀ a ∈ as, Q a := by
  induction bound with
  | nil => exact ret nofun
  | cons t bound ih =>
    refine h.bind fun o each => ?_
    cases o with
    | none => exact ret nofun
    | some a => exact ih.bind fun as others => ret (List.forall_mem_cons.2 ⟨each a rfl, others⟩)

theorem many {item : Rule (Option α)} (h : Makes T item fun o => ∀ a ∈ o, Q a) :
    Makes T (many item) fun as => ∀ a ∈ as, Q a :=
  fun ts => upTo h ts ts

theorem after {mark : Rule Bool} (marked : Makes T mark fun _ => True) (item : Makes T r Q) :
    Makes T (after mark r) fun o => ∀ a ∈ o, Q a := by
  refine marked.pass fun b => ite (fun _ => ?_) fun _ => ret nofun
  exact map (item.post fun a hq b same => Option.some.inj same ▸ hq)

theorem commaList (item : Makes T r Q) :
    Makes T (commaList r) fun as => as ≠ [] ∧ ∀ a ∈ as, Q a := by
  refine item.bind fun a first => ?_
  refine (many (after (eat _) item)).bind fun as others => ?_
  exact ret ⟨List.cons_ne_nil a as, List.forall_mem_cons.2 ⟨first, others⟩⟩

theorem enter {scope : Scope} {rule : Level → Rule α}
    (h : ∀ level, scope.inside = some level → Makes T (rule level) Q) :
    Makes T (scope.enter rule) Q := by
  intro ts a rest all hp run
  obtain ⟨level, inside, ran⟩ := enter_eq_ok run
  exact h level inside ts a rest all hp ran

theorem name : Makes T name fun text => text ≠ "*" := by
  refine expect.post fun text found => ?_
  obtain ⟨t, _, accepted⟩ := found
  split at accepted
  · rename_i isName
    obtain rfl := Option.some.inj accepted
    simp only [SqlQuery.isName, Bool.and_eq_true, bne_iff_ne] at isName
    exact isName.2
  · cases accepted

theorem nameList : Makes T nameList fun names => names ≠ [] ∧ ∀ name ∈ names, name ≠ "*" := by
  refine (require _ _).pass fun _ => ?_
  refine name.commaList.bind fun names each => ?_
  exact (require _ _).pass fun _ => ret each

theorem columnNames : Makes T columnNames fun names => ∀ name ∈ names, name ≠ "*" :=
  (look _ _).pass fun _ => ite (fun _ => nameList.post fun _ => And.right) fun _ => ret nofun

end Makes

/-- The invariant speaks of the items read so far. As each of them takes a token, they are read until
one is missing, or no token is left. -/
theorem Gets.many {item : Rule (Option α)} {I Done : List α → List Token → Prop}
    (step : ∀ as, Gets T (I as) item fun o rest => match o with
      | none => Done as rest
      | some a => I (as ++ [a]) rest)
    (shorter : ∀ ts a rest, (∀ t ∈ ts, T t) → item ts = .ok (some a, rest) →
      rest.length < ts.length)
    (empty : ∀ as, I as [] → Done as []) : Gets T (I []) (many item) Done := by
  have general (bound : List Token) : ∀ as ts bs rest, (∀ t ∈ ts, T t) →
      ts.length ≤ bound.length → I as ts → Rule.upTo item bound ts = .ok (bs, rest) →
      rest <:+ ts ∧ Done (as ++ bs) rest := by
    induction bound with
    | nil =>
      intro as ts bs rest _ short inv run
      obtain ⟨rfl, rfl⟩ := pure_eq_ok.1 run
      obtain rfl := List.length_eq_zero_iff.1 (Nat.le_zero.1 short)
      exact ⟨List.suffix_refl _, by simpa using empty as inv⟩
    | cons t bound ih =>
      intro as ts bs rest all short inv run
      obtain ⟨o, mid, ran, next⟩ := bind_eq_ok.1 run
      obtain ⟨suffix, done⟩ := step as ts o mid all inv ran
      cases o with
      | none =>
        obtain ⟨rfl, rfl⟩ := pure_eq_ok.1 next
        exact ⟨suffix, by simpa using done⟩
      | some a =>
        obtain ⟨others, rest', ran', last⟩ := bind_eq_ok.1 next
        obtain ⟨rfl, rfl⟩ := pure_eq_ok.1 last
        have taken := shorter ts a mid all ran
        simp only [List.length_cons] at short
        obtain ⟨suffix', done'⟩ :=
          ih (as ++ [a]) mid others rest (all_suffix all suffix) (by omega) done ran'
        exact ⟨suffix'.trans suffix, by simpa using done'⟩
  intro ts bs rest all inv run
  exact general ts [] ts bs rest all (Nat.le_refl _) inv run

end SqlQuery.Rule
