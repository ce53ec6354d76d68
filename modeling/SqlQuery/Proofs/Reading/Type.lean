import SqlQuery.Proofs.Reading.Expression

/-!
Type names are read back, and so are the casts written with two colons.
-/

namespace SqlQuery.Grammar

open Rule

variable {d : Dialect} {scope : Scope} {level : Level} {rest : List Token}

/-- Nothing here goes on with the name of a type. -/
def NoTypeWord (ts : List Token) : Prop :=
  ∀ t ∈ ts.head?, (∀ word ∈ Token.typeWords, t.isWord word = false) ∧ t.isCommand "with" = false

theorem NoTypeWord.lacks {ts : List Token} (h : NoTypeWord ts) {word : String}
    (mem : word ∈ Token.typeWords) : Lacks (fun t => t.isWord word) ts :=
  fun t head => (h t head).1 word mem

theorem noTypeWord_of_closed {bound : Nat} (closed : Closed bound rest) : NoTypeWord rest := by
  intro t head
  have plain := (closed t head).1
  cases kind : t.kind with
  | command =>
    simp only [Token.extendsValue, kind, Bool.or_eq_false_iff, List.any_eq_false,
      beq_eq_false_iff_ne, Bool.not_eq_true] at plain
    exact ⟨plain.2, by simp [Token.isCommand, plain.1.2]⟩
  | identifier =>
    simp only [Token.extendsValue, kind, List.any_eq_false, Bool.not_eq_true] at plain
    exact ⟨plain, by simp [Token.isCommand, kind]⟩
  | _ => simp [Token.isWord, Token.isCommand, kind]

theorem typeSuffix_none (name : String) {ts : List Token} (h : NoTypeWord ts) :
    (typeSuffix name).Gives ts "" ts := by
  have one (word suffix : String) (mem : word ∈ Token.typeWords) : Gives (do
      if ← eatWord word then return suffix else return "" : Rule String) ts "" ts :=
    (Gives.eat_false (h.lacks mem)).bind (Gives.iteFalse (by decide) (Gives.ret _ _))
  have zone : timeZone.Gives ts "" ts := by
    refine (Gives.look 1 _ ts).bind ((Gives.look 2 _ ts).bind ?_)
    by_cases words : (ts[1]?.any fun t => t.isWord "time") && ts[2]?.any fun t => t.isWord "zone"
    · refine Gives.iteTrue words ((Gives.eat_false fun t head => (h t head).2).bind ?_)
      refine Gives.iteFalse (by decide) ((Gives.eat_false (h.lacks (by decide))).bind ?_)
      exact Gives.iteFalse (by decide) (Gives.ret _ _)
    · exact Gives.iteFalse words (Gives.ret _ _)
  unfold typeSuffix
  split
  · exact one _ _ (by decide)
  split
  · exact one _ _ (by decide)
  split
  · exact zone
  · exact Gives.ret _ _

/-- The names of several words: the first, the tokens of the others, and their text. -/
def longTypeParts : List (String × List Token × String) :=
  let name (word : String) : Token := ⟨.identifier, word⟩
  [("double", [name "precision"], " precision"), ("character", [name "varying"], " varying"),
   ("char", [name "varying"], " varying"), ("bit", [name "varying"], " varying"),
   ("timestamp", [⟨.command, "with"⟩, name "time", name "zone"], " with time zone"),
   ("timestamp", [name "without", name "time", name "zone"], " without time zone"),
   ("time", [⟨.command, "with"⟩, name "time", name "zone"], " with time zone"),
   ("time", [name "without", name "time", name "zone"], " without time zone")]

theorem longTypes_eq : longTypes = longTypeParts.map fun (word, _, suffix) => word ++ suffix := by
  decide

theorem longTypeParts_tokens : ∀ parts ∈ longTypeParts,
    (rawMark (parts.1 ++ parts.2.2)).tokens = ⟨.identifier, parts.1⟩ :: parts.2.1 ∧
      isName ⟨.identifier, parts.1⟩ = true ∧ Text.lower parts.1 = parts.1 := by
  decide +kernel

theorem typeSuffix_long (rest : List Token) : ∀ parts ∈ longTypeParts,
    (typeSuffix parts.1).Gives (parts.2.1 ++ rest) parts.2.2 rest := by
  intro parts mem
  simp only [longTypeParts, List.mem_cons, List.not_mem_nil, or_false] at mem
  rcases mem with rfl | rfl | rfl | rfl | rfl | rfl | rfl | rfl
  all_goals rfl

theorem noTypeWord_open (rest : List Token) : NoTypeWord (openToken :: rest) := by
  intro t head
  obtain rfl : openToken = t := by simpa using head
  exact ⟨by decide, by decide⟩

theorem lacks_open_of_closed {bound : Nat} (closed : Closed bound rest) :
    Lacks (isKind .openParen) rest := by
  intro t head
  have plain := (closed t head).1
  cases kind : t.kind with
  | openParen => simp [Token.extendsValue, kind] at plain
  | _ => simp [isKind, kind]

/-- The name of a type is read back in two parts. -/
theorem typeName_reads {name : String} {ts : List Token} (fits : IsTypeName name)
    (plain : NoTypeWord ts) : ∃ word suffix mid,
      (rawMark name).tokens ++ ts = ⟨.identifier, word⟩ :: mid ∧
        isName ⟨.identifier, word⟩ = true ∧ Text.lower word = word ∧ word ++ suffix = name ∧
        (typeSuffix word).Gives mid suffix ts := by
  rcases fits with long | ⟨word, lower⟩
  · rw [longTypes_eq] at long
    obtain ⟨parts, mem, rfl⟩ := List.mem_map.1 long
    obtain ⟨tokens, named, lower⟩ := longTypeParts_tokens parts mem
    refine ⟨parts.1, parts.2.2, parts.2.1 ++ ts, ?_, named, lower, rfl, typeSuffix_long ts parts mem⟩
    rw [tokens]
    rfl
  · refine ⟨name, "", ts, ?_, ?_, lower, String.append_empty, typeSuffix_none name plain⟩
    · rw [word.mark]
      rfl
    · simpa [isName, wildcardName] using word.ne_wildcard

theorem typeRef_gives {type : TypeRef} {bound : Nat} (fits : IsTypeName type.name)
    (argument : ∀ e ∈ type.argument, ∃ es, e = .list es ∧ es ≠ [] ∧ ∀ v ∈ es, level.ReadsValue d v)
    (closed : Closed bound rest) :
    (typeRef level).Gives (Mark.read (type.marks d) ++ rest) type rest := by
  have named {name : String} {o : Option Expr} {ts : List Token} (fits : IsTypeName name)
      (plain : NoTypeWord ts)
      (h : (after (eatKind .openParen) (do
        let values ← values level
        closeParen
        return Expr.list values)).Gives ts o rest) :
      (typeRef level).Gives ((rawMark name).tokens ++ ts) ⟨name, o⟩ rest := by
    obtain ⟨word, suffix, mid, tokens, named, lower, rfl, read⟩ := typeName_reads fits plain
    rw [tokens]
    refine (Gives.expect (a := word) (by rw [if_pos named, lower])).bind ?_
    exact read.bind (h.bind (Gives.ret _ _))
  obtain ⟨name, argument'⟩ := type
  cases argument' with
  | none =>
    simp only [TypeRef.marks, Mark.read_cons, Mark.read_nil, List.append_nil]
    refine named fits (noTypeWord_of_closed closed) ?_
    exact Gives.after_none (Gives.eat_false (lacks_open_of_closed closed))
  | some e =>
    obtain ⟨es, rfl, some, reads⟩ := argument e rfl
    have tokens : Mark.read (TypeRef.marks d ⟨name, Option.some (.list es)⟩) ++ rest =
        (rawMark name).tokens ++ (openToken :: (commaTokens (es.map (Expr.tokens d)) ++
          closeToken :: rest)) := by
      simp [TypeRef.marks, Expr.marks, ← read_exprs]
    rw [tokens]
    refine named fits (noTypeWord_open _) ?_
    refine Gives.after_some (Gives.eat_true rfl) ?_
    refine (values_give some reads (closed_close 0 rest) ?_).bind ?_
    · intro t head
      obtain rfl : closeToken = t := by simpa using head
      rfl
    · exact (Gives.require rfl).bind (Gives.ret _ _)

end SqlQuery.Grammar
