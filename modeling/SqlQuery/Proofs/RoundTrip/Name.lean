import SqlQuery.Proofs.Layout.Text
import SqlQuery.Proofs.Scanning.Name
import SqlQuery.Proofs.Written.Step

/-!
A name that is written is the first lexeme of every text that goes on after it with a character that
ends a name.
-/

namespace SqlQuery

variable {d : Dialect} {name : String}

/-- No name is written as the mark of a parameter without a name. -/
theorem Dialect.spellName_ne_mark (d : Dialect) [d.Readable] (named : name ≠ wildcardName) :
    d.spellName name ≠ ['?'] := by
  intro mark
  have front : Piece.Heads none ⟨.identifier, name, d.spellName name, []⟩ (d.spellName name ++ []) :=
    .name named rfl ⟨.nil, by simp⟩
  rw [mark] at front
  obtain ⟨-, -, read⟩ := front
  have parameter := Piece.read_source_mark (read 0) rfl
  cases parameter

/-- The scan of a name goes on with what comes after it. -/
theorem Scan.run_spellName [d.Readable] (named : name ≠ wildcardName) {previous : Option Token}
    (clear : Clear previous) {cs : List Char} (ending : NameEnd d name cs) (ordinal position : Nat) :
    Scan.run previous ordinal position (d.spellName name ++ cs) =
      withLexeme ⟨⟨.identifier, name⟩, position, position + Text.size (d.spellName name)⟩
        (Scan.run (some ⟨.identifier, name⟩) ordinal (position + Text.size (d.spellName name)) cs) := by
  have unmarked : ordinalAfter ordinal ⟨.identifier, name, d.spellName name, cs⟩ = ordinal :=
    if_neg (d.spellName_ne_mark named)
  rw [run_heads (.name named clear ending), unmarked]
  rfl

/-- What may come after a name in a text. -/
def nameEnds : List Char := [' ', ',', '.', '(', ')']

theorem NameEnd.of_mem [d.Readable] {cs : List Char} (next : ∀ c ∈ cs.head?, c ∈ nameEnds) :
    NameEnd d name cs := by
  have inside : ∀ c ∈ nameEnds, c ∈ boundaryChars ∧ c ≠ ']' :=
    List.all_iff_forall_prop.1 (by decide)
  cases cs with
  | nil => exact ⟨.nil, by simp⟩
  | cons c cs =>
    obtain ⟨mem, other⟩ := inside c (next c rfl)
    exact .cons mem other cs

/-- Every name but the wildcard is read back as it is written in a dialect that is known by name, with
either policy. It is the first lexeme of the text and ends where the written name does, also if the
scan of what comes after it fails. -/
theorem scan_written_name (p : Preset) (policy : QuotePolicy) (limit : Nat)
    (named : name ≠ wildcardName) {following : String}
    (next : ∀ c ∈ following.toList.head?, c ∈ nameEnds) :
    let d : Dialect := { p.dialect with quotePolicy := policy }
    ∃ text, (Node.identifier name).write d (limit + 1) = .ok text ∧
      let l : Lexeme := ⟨⟨.identifier, name⟩, 0, text.utf8ByteSize⟩
      Scan.run none 0 0 (text ++ following).toList =
          .withLexeme l (Scan.run (some l.toToken) 0 l.stop following.toList) ∧
        ∀ ls, (scan (text ++ following)).2 = .ok ls → ls.head? = some l := by
  intro d
  have written : (Node.identifier name).write d (limit + 1) = .ok (String.ofList (d.spellName name)) :=
    Node.write_ok_iff.2 ⟨rfl, by simp [Node.marks, Mark.spellAll, Mark.spell]⟩
  have ran := Scan.run_spellName (d := d) named (rfl : Clear none) (.of_mem next) 0 0
  rw [Nat.zero_add, ← String.toList_ofList (l := d.spellName name), Text.size_toList,
    ← String.toList_append] at ran
  refine ⟨_, written, ran, fun ls scanned => ?_⟩
  have outcome := Scan.run_of_scan scanned
  rw [ran] at outcome
  obtain ⟨later, -, rfl⟩ := Except.map_eq_ok.1 outcome
  rfl

/-- A name with its own closing mark in it is read back in front of a comment without an end. -/
theorem scan_written_name_unclosed :
    let d : Dialect := { Preset.sqlserver.dialect with quotePolicy := .whenNeeded }
    let l : Lexeme := ⟨⟨.identifier, "a]b"⟩, 0, 6⟩
    (Node.identifier "a]b").write d 1 = .ok "[a]]b]" ∧
      Scan.run none 0 0 "[a]]b] /*".toList =
        .withLexeme l (Scan.run (some l.toToken) 0 6 " /*".toList) ∧
      (Scan.run none 0 0 "[a]]b] /*".toList).outcome = .error (.unclosedComment, 7) := by
  intro d l
  obtain ⟨text, written, ran, -⟩ :=
    scan_written_name .sqlserver .whenNeeded 0 (show "a]b" ≠ wildcardName by decide)
      (show ∀ c ∈ " /*".toList.head?, c ∈ nameEnds by simp [nameEnds])
  have spelled : (Node.identifier "a]b").write d 1 = .ok "[a]]b]" := by decide +kernel
  obtain rfl := Except.ok.inj (written.symm.trans spelled)
  exact ⟨spelled, ran, by decide +kernel⟩

end SqlQuery
