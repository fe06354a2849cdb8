import Kotoba.Proofs.Diagnostic.Excerpt

/-! Excerpts for spans of other texts. The lines and columns of a span may be any integers, with no
regard to the text that is quoted. All the same an excerpt takes lines only from where the source
has them and repeats characters only as often as can be: a renderer in which the one or the other
may fail does not, and gives the same report. -/
namespace Kotoba

theorem Lines.length_pos {α : Type} {x : α} {l : List α} {ls : List (List α)} (h : Lines x l ls) :
    0 < ls.length := by
  cases h <;> exact Nat.succ_pos _

/-- Every text has a line, if only an empty one. -/
theorem Bytes.length_lines_pos (text : Bytes) : 0 < text.lines.length := by
  rw [← List.length_map chars]
  exact (lines_lines text).length_pos

namespace Excerpt

/-- The line with an index. There is none unless the index is one of the list. -/
def line? (lines : List Bytes) (index : Int) : Option Bytes :=
  if 0 ≤ index then lines[index.toNat]? else none

/-- So many times a character. There is no row with a negative number of them. -/
def row? (c : Char) (count : Int) : Option String :=
  if 0 ≤ count then some ("".pushn c count.toNat) else none

/-- The line with a number, as the excerpt shows it. -/
def numbered? (lines : List Bytes) (number : Int) : Option Bytes := do
  let line ← line? lines (number - 1)
  return gutter number.toNat ++ line ++ "\n"

/-- A line next to the marked one. It is left out if the source ends there. -/
def neighbour? (lines : List Bytes) (present : Prop) [Decidable present] (number : Int) :
    Option Bytes :=
  if present then numbered? lines number else some .empty

/-- The excerpt for a span, computed with integers. It fails with any line that is not there and
with any row that cannot be. -/
def text? (source : Bytes) (span : Span) : Option Bytes := do
  let lines := source.lines
  let line := max 1 (min span.start.line lines.length)
  let column := max 1 span.start.column
  let carets := if span.stop.line = span.start.line ∧ column < span.stop.column
    then span.stop.column - column + 1 else 1
  let before ← neighbour? lines (1 < line) (line - 1)
  let marked ← numbered? lines line
  let blanks ← row? ' ' (column - 1)
  let marks ← row? '^' carets
  let after ← neighbour? lines (line < lines.length) (line + 1)
  return before ++ marked ++ Bytes.ofString ("     | " ++ blanks ++ marks ++ "\n") ++ after

variable {source : Bytes} {lines : List Bytes} {span : Span}

theorem lineNumber_eq (line : Int) {count : Nat} (h : 0 < count) :
    max 1 (min line count) = (lineNumber line count : Int) := by
  unfold lineNumber
  omega

theorem columnNumber_eq (column : Int) : max 1 column = (columnNumber column : Int) := by
  unfold columnNumber
  omega

theorem caretCount_toInt (span : Span) (column : Nat) :
    (if span.stop.line = span.start.line ∧ (column : Int) < span.stop.column
      then span.stop.column - column + 1 else 1) = (caretCount span column : Int) := by
  unfold caretCount
  split <;> omega

/-- The line to show is one of the source. -/
theorem exists_lineNumber (line : Int) {count : Nat} (h : 0 < count) :
    ∃ n, lineNumber line count = n + 1 ∧ n < count := by
  refine ⟨lineNumber line count - 1, ?_, ?_⟩ <;> unfold lineNumber <;> omega

theorem exists_columnNumber (column : Int) : ∃ c, columnNumber column = c + 1 := by
  refine ⟨columnNumber column - 1, ?_⟩
  unfold columnNumber
  omega

theorem row?_natCast (c : Char) (n : Nat) : row? c n = some ("".pushn c n) := rfl

theorem numbered?_succ {n : Nat} (h : n < lines.length) :
    numbered? lines (n + 1 : Nat) = some (numbered lines (n + 1)) := by
  have hindex : ((n + 1 : Nat) : Int) - 1 = (n : Nat) := by omega
  rw [numbered?, hindex]
  simp [line?, numbered, List.getElem?_eq_getElem h]

/-- The line before the marked one is there, unless that is the first. -/
theorem neighbour?_before {n : Nat} (h : n < lines.length) :
    neighbour? lines (1 < ((n + 1 : Nat) : Int)) ((n + 1 : Nat) - 1) = some (numbered lines n) := by
  cases n with
  | zero => rfl
  | succ n =>
    have hnumber : ((n + 1 + 1 : Nat) : Int) - 1 = (n + 1 : Nat) := by omega
    rw [neighbour?, if_pos (by omega), hnumber, numbered?_succ (by omega)]

/-- The line after the marked one is there, unless that is the last. -/
theorem neighbour?_after (lines : List Bytes) (n : Nat) :
    neighbour? lines (((n + 1 : Nat) : Int) < lines.length) ((n + 1 : Nat) + 1) =
      some (numbered lines (n + 2)) := by
  by_cases h : n + 1 < lines.length
  · have hnumber : ((n + 1 : Nat) : Int) + 1 = (n + 1 + 1 : Nat) := by omega
    rw [neighbour?, if_pos (by omega), hnumber, numbered?_succ h]
  · have hnone : lines[n + 1]? = none := List.getElem?_eq_none (Nat.le_of_not_lt h)
    rw [neighbour?, if_neg (by omega), numbered, hnone]

/-- No line and no row of an excerpt fails. -/
theorem text?_eq (source : Bytes) (span : Span) : text? source span = some (text source span) := by
  have hlines := Bytes.length_lines_pos source
  obtain ⟨n, hnumber, hn⟩ := exists_lineNumber span.start.line hlines
  obtain ⟨c, hcolumn⟩ := exists_columnNumber span.start.column
  have hblanks : ((c + 1 : Nat) : Int) - 1 = (c : Nat) := by omega
  simp only [text?, text, lineNumber_eq _ hlines, columnNumber_eq, caretCount_toInt, hnumber,
    hcolumn, hblanks, neighbour?_before hn, neighbour?_after, numbered?_succ hn, row?_natCast]
  rfl

/-- There are no more carets than the column to which they go. -/
theorem caretCount_le (span : Span) (column : Nat) :
    (caretCount span (column + 1) : Int) ≤ max 1 span.stop.column := by
  unfold caretCount
  split <;> omega

theorem count_caretLine (column carets : Nat) :
    (caretLine column carets).chars.count '^' = carets := by
  have hmargin : [' ', ' ', ' ', ' ', ' ', '|', ' '].count '^' = 0 := by decide
  rw [caretLine, Bytes.chars_ofString, marks, List.count_append, List.count_append, hmargin,
    List.count_replicate, List.count_replicate_self]
  simp

end Excerpt

namespace Report

open Excerpt

/-- A report with an excerpt that may fail. -/
def render? (r : Report) (name source : Bytes) : Option Bytes :=
  match r.diagnostic? with
  | none => some r.text
  | some d =>
    if d.span.isUnknown || source.isEmpty then some r.text
    else do
      let excerpt ← text? source d.span
      return r.text ++ "\n" ++ (if name.isEmpty then .empty else heading name source d.span) ++
        excerpt

theorem render?_eq (r : Report) (name source : Bytes) :
    r.render? name source = some (r.render name source) := by
  unfold render? render
  cases r.diagnostic? with
  | none => rfl
  | some d =>
    dsimp only
    split
    · rfl
    · rw [text?_eq]
      rfl

/-- Reports are safe whatever the span. No line is taken from where the source has none and no
character is repeated a negative number of times; and either there is only the text of the report,
or there is an excerpt, about the line of the source that is nearest to where the diagnostic starts,
and at least one caret in it. -/
theorem render_any_span (r : Report) (name source : Bytes) :
    r.render? name source = some (r.render name source) ∧
    ((r.diagnostic?.all fun d => d.span.isUnknown || source.isEmpty) ∧
        r.render name source = r.text ∨
      ∃ (d : Diagnostic) (n c : Nat) (line carets : Bytes), r.diagnostic? = some d ∧
        max 1 (min d.span.start.line source.lines.length) = (n + 1 : Nat) ∧
        max 1 d.span.start.column = (c + 1 : Nat) ∧ source.lines[n]? = some line ∧
        (r.render name source).lines = r.text.lines ++
          (if name.isEmpty then []
            else ("  --> " ++ name ++ Bytes.ofString s!":{n + 1}:{c + 1}").lines) ++
          lineAt source.lines n ++ [gutter (n + 1) ++ line, carets] ++
          lineAt source.lines (n + 2) ++ [.empty] ∧
        0 < carets.chars.count '^' ∧
        (carets.chars.count '^' : Int) ≤ max 1 d.span.stop.column) := by
  refine ⟨render?_eq r name source, ?_⟩
  cases hd : r.diagnostic? with
  | none => exact .inl ⟨rfl, by rw [render, hd]⟩
  | some d =>
    by_cases hplain : (d.span.isUnknown || source.isEmpty) = true
    · exact .inl ⟨hplain, by rw [render, hd]; exact if_pos hplain⟩
    · have hlines := Bytes.length_lines_pos source
      obtain ⟨n, hnumber, hn⟩ := exists_lineNumber d.span.start.line hlines
      obtain ⟨c, hcolumn⟩ := exists_columnNumber d.span.start.column
      obtain ⟨hknown, hsource⟩ := Bool.or_eq_false_iff.mp (Bool.eq_false_iff.mpr hplain)
      have hline := List.getElem?_eq_getElem hn
      refine .inr ⟨d, n, c, _, _, rfl, ?_, ?_, hline,
        lines_render_of_known hd hsource hknown hline hnumber hcolumn, ?_, ?_⟩
      · rw [lineNumber_eq _ hlines, hnumber]
      · rw [columnNumber_eq, hcolumn]
      · rw [count_caretLine]
        exact caretCount_pos _ _
      · rw [count_caretLine]
        exact caretCount_le _ _

end Report

end Kotoba
