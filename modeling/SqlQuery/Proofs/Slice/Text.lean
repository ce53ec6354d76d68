import Mathlib.Data.String.Basic
import SqlQuery.Proofs.Layout.Text
import SqlQuery.Proofs.Slice.Normal

/-!
The lexemes of a scan and their slices of the text. Each lexeme was read as a piece that takes just its
slice, after the lexeme before it and after so many marks of parameters, and so its text is the normal
form of its slice.
-/

namespace SqlQuery

open Text (size)

/-- What the lexeme takes of the text. -/
def Lexeme.slice (text : String) (l : Lexeme) : String :=
  String.Pos.Raw.extract text ⟨l.position⟩ ⟨l.stop⟩

/-- How many of the lexemes are marks of parameters without a name. -/
def marks (text : String) (ls : List Lexeme) : Nat := ls.countP fun l => l.slice text == "?"

theorem Text.size_eq_utf8Len (cs : List Char) : size cs = String.utf8Len cs := by
  induction cs with
  | nil => rfl
  | cons c cs ih => rw [size_cons, String.utf8Len_cons, ih, Nat.add_comm]

variable {text : String} {before cs source rest : List Char}

theorem Lexeme.slice_eq {l : Lexeme} (whole : text.toList = before ++ (source ++ rest))
    (low : l.position = size before) (high : l.stop = l.position + size source) :
    l.slice text = String.ofList source := by
  have valid := String.extract_of_valid before source rest
  rw [List.append_assoc, ← whole, String.ofList_toList, ← Text.size_eq_utf8Len,
    ← Text.size_eq_utf8Len] at valid
  rw [Lexeme.slice, high, low, valid]

theorem marks_append (text : String) (ls ms : List Lexeme) :
    marks text (ls ++ ms) = marks text ls + marks text ms := List.countP_append ..

namespace Scan

/-- A piece is counted if its slice is a mark. -/
theorem ordinalAfter_eq {l : Lexeme} {piece : Piece} (slice : l.slice text = String.ofList piece.source)
    (ordinal : Nat) : ordinalAfter ordinal piece = ordinal + marks text [l] := by
  have mark : (String.ofList piece.source = "?") ↔ piece.source = ['?'] := by
    rw [show "?" = String.ofList ['?'] from rfl, String.ofList_inj]
  by_cases h : piece.source = ['?']
  · simp [ordinalAfter, marks, slice, h]
  · simp [ordinalAfter, marks, slice, mark, h]

variable {previous : Option Token} {ordinal position : Nat} {lexemes : List Lexeme}

/-- Each lexeme was read as a piece that takes its slice. What the piece is read after is the lexeme
before it and the marks up to there. -/
theorem run_read (whole : text.toList = before ++ cs) (here : position = size before)
    (h : (Scan.run previous ordinal position cs).outcome = .ok lexemes) {i : Nat} {l : Lexeme}
    (found : lexemes[i]? = some l) : ∃ c rest piece,
      Piece.read (((lexemes.take i).getLast?.map Lexeme.toToken).or previous)
        (ordinal + marks text (lexemes.take i)) c rest = .ok piece ∧
      l.toToken = ⟨piece.kind, piece.text⟩ ∧ l.slice text = String.ofList piece.source := by
  induction lexemes generalizing previous ordinal position before cs i with
  | nil => cases found
  | cons first later ih =>
    obtain ⟨gap, passes⟩ := Gap.skip_passes whole here
    rcases run_ok h with ⟨_, none⟩ | ⟨c, rest, piece, later', left, read, same, ran⟩
    · cases none
    obtain ⟨rfl, rfl⟩ := List.cons.inj same
    have splits : piece.Splits (Gap.skip position cs).rest := left ▸ Piece.read_splits read
    have placed : text.toList = (before ++ gap) ++ (piece.source ++ piece.rest) := by
      rw [whole, passes.split, splits.1, List.append_assoc]
    have low : (Gap.skip position cs).position = size (before ++ gap) := by
      rw [passes.stops, here, Text.size_append]
    have slice : (piece.lexemeAt (Gap.skip position cs).position).slice text =
        String.ofList piece.source := Lexeme.slice_eq placed low rfl
    cases i with
    | zero =>
      cases found
      exact ⟨c, rest, piece, by simpa [marks] using read, rfl, slice⟩
    | succ i =>
      have after : ordinal + marks text
          (piece.lexemeAt (Gap.skip position cs).position :: later.take i) =
            ordinalAfter ordinal piece + marks text (later.take i) := by
        rw [ordinalAfter_eq slice, Nat.add_assoc, ← marks_append, List.singleton_append]
      have onward : text.toList = before ++ gap ++ piece.source ++ piece.rest := by
        rw [placed, List.append_assoc _ _ piece.rest]
      have high : (piece.lexemeAt (Gap.skip position cs).position).stop =
          size (before ++ gap ++ piece.source) := by
        simp only [Piece.lexemeAt, low, Text.size_append]
      obtain ⟨c', rest', piece', read', token, slice'⟩ := ih onward high ran found
      refine ⟨c', rest', piece', ?_, token, slice'⟩
      rw [List.take_succ_cons, after, ← read']
      congr 1
      cases last : (later.take i).getLast? with
      | none => simp [List.getLast?_cons, last, Piece.lexemeAt]
      | some l => simp [List.getLast?_cons, last]

end Scan

/--
The text of every lexeme is a normal form of its slice of the query text. A keyword has the words of
its slice in lowercase with one blank between each two; a name is as it stands or, if it is quoted,
without its delimiters and with each doubled closing one taken once; a number has no plus, no blanks
after its sign and a digit in front of its point; the specifier of a string is in lowercase; a parameter
is what follows its mark, or the number of the mark if it has no name; and all else is as it stands.
-/
theorem scan_normal {lexemes : List Lexeme} (h : (scan text).2 = .ok lexemes) {i : Nat} {l : Lexeme}
    (found : lexemes[i]? = some l) :
    l.text.toList =
      normalText l.kind (marks text (lexemes.take (i + 1))) (l.slice text).toList := by
  obtain ⟨c, rest, piece, read, token, slice⟩ :=
    Scan.run_read (List.nil_append _).symm rfl (Scan.run_of_scan h) found
  have normal := Piece.read_normal read
  have counted : marks text (lexemes.take (i + 1)) =
      Scan.ordinalAfter (0 + marks text (lexemes.take i)) piece := by
    rw [Scan.ordinalAfter_eq slice, List.take_add_one, found, marks_append, Nat.zero_add]
    rfl
  rw [counted, slice, String.toList_ofList, show l.kind = piece.kind from congrArg Token.kind token,
    show l.text = piece.text from congrArg Token.text token, normal]

/-- A keyword, names in quotes, a signed number, a string with a specifier and parameters. -/
theorem scan_normal_kinds :
    let text := "[c]]d] GROUP  By ?, - .5, U&'x', :n, \"\"\"\" = ?"
    ∃ lexemes, (scan text).2 = .ok lexemes ∧
      lexemes.map (fun l => (l.slice text, l.text)) = [("[c]]d]", "c]d"), ("GROUP  By", "group by"),
        ("?", "1"), (",", ","), ("- .5", "-0.5"), (",", ","), ("U&'x'", "u&'x'"), (",", ","),
        (":n", "n"), (",", ","), ("\"\"\"\"", "\""), ("=", "="), ("?", "2")] ∧
      ∀ i l, lexemes[i]? = some l → l.text.toList =
        normalText l.kind (marks text (lexemes.take (i + 1))) (l.slice text).toList := by
  intro text
  obtain ⟨lexemes, scanned, slices⟩ := Except.toOption_map_eq_some
    (b := [("[c]]d]", "c]d"), ("GROUP  By", "group by"), ("?", "1"), (",", ","), ("- .5", "-0.5"),
      (",", ","), ("U&'x'", "u&'x'"), (",", ","), (":n", "n"), (",", ","), ("\"\"\"\"", "\""),
      ("=", "="), ("?", "2")])
    (r := (scan text).2) (f := List.map fun l => (l.slice text, l.text)) (by decide +kernel)
  exact ⟨lexemes, scanned, slices, fun i l found => scan_normal scanned found⟩

end SqlQuery
