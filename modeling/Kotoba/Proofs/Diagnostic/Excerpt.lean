import Kotoba.Diagnostic.Report
import Kotoba.Proofs.Source.Position
import Kotoba.Proofs.Text.Number

/-! Excerpts line by line. A report quotes the line on which its span starts, between its
neighbours, and below it stands a line with carets. The carets begin in column 8 of their line,
which is where the quoted line begins as long as its number has at most four digits. -/
namespace Kotoba

namespace Bytes

/-- A line feed among the bytes of a text is one of its characters. -/
theorem newline_mem_chars {b : Bytes} (h : 0x0a ∈ b.toList) : '\n' ∈ b.chars := by
  obtain ⟨before, after, hb⟩ := List.append_of_mem h
  have hsplit : b = ofList before ++ "\n" ++ ofList after := by
    apply eq_of_toList
    rw [toList_append, toList_append, show (ofString "\n").toList = [0x0a] by decide, hb,
      toList_ofList, toList_ofList, List.append_assoc, List.singleton_append]
  rw [hsplit, chars_append_newline]
  exact List.mem_append_right _ List.mem_cons_self

end Bytes

namespace Excerpt

open Bytes (ofString)

variable {text line : Bytes} {span : Span} {n c : Nat}

theorem lineNumber_of_getElem? (h : text.lines[n]? = some line) :
    lineNumber (n + 1) text.lines.length = n + 1 := by
  obtain ⟨hn, -⟩ := List.getElem?_eq_some_iff.mp h
  unfold lineNumber
  omega

theorem columnNumber_succ (c : Nat) : columnNumber (c + 1) = c + 1 := by
  unfold columnNumber
  omega

/-- The characters of a line of an excerpt up to those of the source. -/
def margin (n : Nat) : List Char :=
  List.replicate (4 - (Nat.toDigits 10 n).length) ' ' ++ Nat.toDigits 10 n ++ [' ', '|', ' ']

theorem toList_pushn (c : Char) (n : Nat) : ("".pushn c n).toList = List.replicate n c := by
  induction n with
  | zero => rfl
  | succ n ih =>
    have hpush : "".pushn c (n + 1) = ("".pushn c n).push c := rfl
    rw [hpush, String.toList_push, ih, List.replicate_succ']

theorem gutter_eq (n : Nat) : gutter n = ofString (String.ofList (margin n)) := by
  have hdigits : (toString n).toList = Nat.toDigits 10 n := Nat.toList_repr
  have htext : "".pushn ' ' (4 - (toString n).length) ++ toString n ++ " | " =
      String.ofList (margin n) := by
    apply String.toList_inj.mp
    rw [String.toList_append, String.toList_append, toList_pushn, ← String.length_toList, hdigits,
      String.toList_ofList, String.toList_ofList, margin]
  exact congrArg ofString htext

/-- The source begins after at least four columns for the number and three for the bar. -/
theorem length_margin (n : Nat) : (margin n).length = max 4 (Nat.toDigits 10 n).length + 3 := by
  unfold margin
  simp only [List.length_append, List.length_replicate, List.length_cons, List.length_nil]
  omega

theorem length_margin_eq_seven (n : Nat) : (margin n).length = 7 ↔ n < 10000 := by
  have hdigits : (Nat.toDigits 10 n).length ≤ 4 ↔ n < 10 ^ 4 :=
    Nat.length_toDigits_le_iff (by decide) (by decide)
  rw [length_margin]
  omega

theorem newline_not_mem_margin (n : Nat) : '\n' ∉ margin n := by
  have hdigits : '\n' ∉ Nat.toDigits 10 n := Text.not_mem_toDigits (by decide) n
  unfold margin
  simp [hdigits]

/-- The line with a number as the excerpt shows it, if the source has it. -/
def lineAt (lines : List Bytes) : Nat → List Bytes
  | 0 => []
  | n + 1 => (lines[n]?.map (gutter (n + 1) ++ ·)).toList

/-- The characters of the line below the quoted one: carets after `column` columns of the source. -/
def marks (column carets : Nat) : List Char :=
  [' ', ' ', ' ', ' ', ' ', '|', ' '] ++ List.replicate column ' ' ++ List.replicate carets '^'

/-- The line below the quoted one. -/
def caretLine (column carets : Nat) : Bytes := ofString (String.ofList (marks column carets))

theorem ofString_caretLine (column carets : Nat) :
    ofString ("     | " ++ "".pushn ' ' column ++ "".pushn '^' carets ++ "\n") =
      caretLine column carets ++ "\n" := by
  have htext : "     | " ++ "".pushn ' ' column ++ "".pushn '^' carets =
      String.ofList (marks column carets) := by
    apply String.toList_inj.mp
    rw [String.toList_append, String.toList_append, toList_pushn, toList_pushn, marks,
      String.toList_ofList, String.toList_ofList]
  rw [Bytes.ofString_append, htext, caretLine]

theorem newline_not_mem_marks (column carets : Nat) : '\n' ∉ marks column carets := by
  unfold marks
  simp

theorem idxOf_marks (column : Nat) {carets : Nat} (h : 0 < carets) :
    (marks column carets).idxOf '^' = 7 + column := by
  have hfree : '^' ∉ [' ', ' ', ' ', ' ', ' ', '|', ' '] ++ List.replicate column ' ' := by simp
  obtain ⟨k, rfl⟩ := Nat.exists_eq_succ_of_ne_zero (Nat.ne_of_gt h)
  unfold marks
  rw [List.idxOf_append, if_neg hfree, List.replicate_succ, List.idxOf_cons_self,
    List.length_append, List.length_replicate, Nat.zero_add]
  rfl

theorem drop_marks (column carets : Nat) :
    (marks column carets).drop (7 + column) = List.replicate carets '^' := by
  unfold marks
  apply List.drop_left'
  rw [List.length_append, List.length_replicate]
  rfl

/-- How many carets there are: one for each column up to the end of the span if that is on the
same line and not before the start, and otherwise one. -/
theorem caretCount_eq (hstart : span.start = ⟨n + 1, c + 1⟩) :
    caretCount span (c + 1) =
      if span.stop.line = n + 1 ∧ c + 1 ≤ span.stop.column then (span.stop.column - c).toNat
      else 1 := by
  unfold caretCount
  rw [hstart]
  push_cast
  split_ifs <;> omega

theorem caretCount_pos (span : Span) (column : Nat) : 0 < caretCount span column := by
  unfold caretCount
  split <;> omega

end Excerpt

namespace Bytes

open Excerpt

theorem newline_not_mem_ofString {cs : List Char} (h : '\n' ∉ cs) :
    0x0a ∉ (ofString (String.ofList cs)).toList := by
  intro hmem
  have hchar := newline_mem_chars hmem
  rw [chars_ofString] at hchar
  exact h hchar

/-- A line of the excerpt is one line. -/
theorem lines_gutter_append {line : Bytes} (n : Nat) (h : 0x0a ∉ line.toList) :
    (gutter n ++ line).lines = [gutter n ++ line] := by
  apply lines_of_not_mem
  rw [toList_append, List.mem_append, not_or, gutter_eq]
  exact ⟨newline_not_mem_ofString (newline_not_mem_margin n), h⟩

/-- The line with a number comes before what follows it in the excerpt. -/
theorem lines_numbered_append (text rest : Bytes) (n : Nat) :
    (numbered text.lines n ++ rest).lines = lineAt text.lines n ++ rest.lines := by
  cases n with
  | zero =>
    rw [numbered, ByteArray.empty_append]
    rfl
  | succ n =>
    cases hline : text.lines[n]? with
    | none =>
      simp only [numbered, lineAt, hline]
      rw [ByteArray.empty_append]
      rfl
    | some line =>
      have hfree := newline_not_mem_lines (List.mem_of_getElem? hline)
      simp only [numbered, lineAt, hline]
      rw [lines_append_newline, lines_gutter_append _ hfree]
      rfl

theorem lines_caretLine (column carets : Nat) :
    (caretLine column carets).lines = [caretLine column carets] :=
  lines_of_not_mem (newline_not_mem_ofString (newline_not_mem_marks column carets))

/-- The lines of an excerpt from the one before the quoted line on. -/
theorem lines_excerpt {text line : Bytes} {n : Nat} (hline : text.lines[n]? = some line)
    (column carets : Nat) :
    Bytes.lines (numbered text.lines n ++ (gutter (n + 1) ++ line ++ "\n") ++
      (caretLine column carets ++ "\n") ++ numbered text.lines (n + 2)) =
      lineAt text.lines n ++ [gutter (n + 1) ++ line, caretLine column carets] ++
        lineAt text.lines (n + 2) ++ [.empty] := by
  have hfree := newline_not_mem_lines (List.mem_of_getElem? hline)
  have hlast : (numbered text.lines (n + 2)).lines = lineAt text.lines (n + 2) ++ [.empty] := by
    have hend := lines_numbered_append text .empty (n + 2)
    have hempty : Bytes.lines .empty = [.empty] := rfl
    rwa [ByteArray.append_empty, hempty] at hend
  rw [ByteArray.append_assoc, ByteArray.append_assoc, lines_numbered_append, lines_append_newline,
    lines_gutter_append _ hfree, lines_append_newline, lines_caretLine, hlast]
  simp only [List.append_assoc, List.cons_append, List.nil_append]

end Bytes

namespace Report

open Excerpt Bytes

variable {r : Report} {d : Diagnostic} {name source line : Bytes} {n c : Nat}

/-- The report of a diagnostic with a place. Its excerpt is about a line of the source, wherever the
diagnostic starts. -/
theorem render_of_known (hd : r.diagnostic? = some d) (hsource : source.isEmpty = false)
    (hknown : d.span.isUnknown = false) (hline : source.lines[n]? = some line)
    (hnumber : lineNumber d.span.start.line source.lines.length = n + 1)
    (hcolumn : columnNumber d.span.start.column = c + 1) :
    r.render name source = r.text ++ "\n" ++
      (if name.isEmpty then .empty
        else "  --> " ++ name ++ Bytes.ofString s!":{n + 1}:{c + 1}\n") ++
      (numbered source.lines n ++ (gutter (n + 1) ++ line ++ "\n") ++
        Bytes.ofString ("     | " ++ "".pushn ' ' c ++
          "".pushn '^' (caretCount d.span (c + 1)) ++ "\n") ++
        numbered source.lines (n + 2)) := by
  have hquote : numbered source.lines (n + 1) = gutter (n + 1) ++ line ++ "\n" := by
    simp only [numbered, hline]
  simp only [render, hd, hknown, hsource, Bool.or_self, Bool.false_eq_true, if_false, heading,
    Excerpt.text, hnumber, hcolumn, Nat.add_sub_cancel]
  rw [hquote]

/-- The lines of such a report. -/
theorem lines_render_of_known (hd : r.diagnostic? = some d) (hsource : source.isEmpty = false)
    (hknown : d.span.isUnknown = false) (hline : source.lines[n]? = some line)
    (hnumber : lineNumber d.span.start.line source.lines.length = n + 1)
    (hcolumn : columnNumber d.span.start.column = c + 1) :
    (r.render name source).lines = r.text.lines ++
      (if name.isEmpty then []
        else ("  --> " ++ name ++ Bytes.ofString s!":{n + 1}:{c + 1}").lines) ++
      lineAt source.lines n ++
      [gutter (n + 1) ++ line, caretLine c (caretCount d.span (c + 1))] ++
      lineAt source.lines (n + 2) ++ [.empty] := by
  have hexcerpt := lines_excerpt hline c (caretCount d.span (c + 1))
  rw [render_of_known hd hsource hknown hline hnumber hcolumn, ofString_caretLine]
  by_cases hname : name.isEmpty = true
  · rw [if_pos hname, if_pos hname, ByteArray.append_empty, lines_append_newline, hexcerpt]
    simp only [List.append_assoc, List.nil_append]
  · have hheading : ("  --> " ++ name ++ Bytes.ofString s!":{n + 1}:{c + 1}\n" : Bytes) =
        "  --> " ++ name ++ Bytes.ofString s!":{n + 1}:{c + 1}" ++ "\n" := by
      have hplace : Bytes.ofString s!":{n + 1}:{c + 1}\n" =
          Bytes.ofString s!":{n + 1}:{c + 1}" ++ "\n" := ofString_append _ _
      rw [hplace, ← ByteArray.append_assoc]
    rw [if_neg hname, if_neg hname, hheading, ByteArray.append_assoc, lines_append_newline,
      lines_append_newline, hexcerpt]
    simp only [List.append_assoc]

theorem isUnknown_of_start (hstart : d.span.start = ⟨n + 1, c + 1⟩) :
    d.span.isUnknown = false := by
  have hstart' : (⟨n + 1, c + 1⟩ : Position).isUnknown = false := by
    unfold Position.isUnknown
    simp only [Bool.and_eq_false_iff, beq_eq_false_iff_ne]
    omega
  rw [Span.isUnknown, hstart, hstart', Bool.false_and]

/-- The report of a diagnostic that starts on a line of the source. -/
theorem render_of_start (hd : r.diagnostic? = some d) (hsource : source.isEmpty = false)
    (hline : source.lines[n]? = some line) (hstart : d.span.start = ⟨n + 1, c + 1⟩) :
    r.render name source = r.text ++ "\n" ++
      (if name.isEmpty then .empty
        else "  --> " ++ name ++ Bytes.ofString s!":{n + 1}:{c + 1}\n") ++
      (numbered source.lines n ++ (gutter (n + 1) ++ line ++ "\n") ++
        Bytes.ofString ("     | " ++ "".pushn ' ' c ++
          "".pushn '^' (caretCount d.span (c + 1)) ++ "\n") ++
        numbered source.lines (n + 2)) := by
  apply render_of_known hd hsource (isUnknown_of_start hstart) hline
  · rw [hstart, lineNumber_of_getElem? hline]
  · rw [hstart, columnNumber_succ]

/-- The lines of such a report. -/
theorem lines_render (hd : r.diagnostic? = some d) (hsource : source.isEmpty = false)
    (hline : source.lines[n]? = some line) (hstart : d.span.start = ⟨n + 1, c + 1⟩) :
    (r.render name source).lines = r.text.lines ++
      (if name.isEmpty then []
        else ("  --> " ++ name ++ Bytes.ofString s!":{n + 1}:{c + 1}").lines) ++
      lineAt source.lines n ++
      [gutter (n + 1) ++ line, caretLine c (caretCount d.span (c + 1))] ++
      lineAt source.lines (n + 2) ++ [.empty] := by
  apply lines_render_of_known hd hsource (isUnknown_of_start hstart) hline
  · rw [hstart, lineNumber_of_getElem? hline]
  · rw [hstart, columnNumber_succ]

/-- A report of a diagnostic that starts on a line of the source quotes that line and its
neighbours as they are. In the line below the quoted one the first caret stands seven columns to
the right of where the span starts in its line, and the carets go on to the end of the span if that
is on the same line and not before the start; otherwise there is one. The source begins after seven
characters in the quoted line too, and so the caret stands below the start, unless the number of the
line has more than four digits. -/
theorem render_caret (name : Bytes) (hd : r.diagnostic? = some d)
    (hsource : source.isEmpty = false) (hline : source.lines[n]? = some line)
    (hstart : d.span.start = ⟨n + 1, c + 1⟩) :
    ∃ carets : Bytes,
      (r.render name source).lines = r.text.lines ++
        (if name.isEmpty then []
          else ("  --> " ++ name ++ Bytes.ofString s!":{n + 1}:{c + 1}").lines) ++
        lineAt source.lines n ++ [gutter (n + 1) ++ line, carets] ++
        lineAt source.lines (n + 2) ++ [.empty] ∧
      (gutter (n + 1) ++ line).chars = (gutter (n + 1)).chars ++ line.chars ∧
      carets.chars.idxOf '^' = 7 + c ∧
      carets.chars.drop (7 + c) = List.replicate
        (if d.span.stop.line = n + 1 ∧ c + 1 ≤ d.span.stop.column
          then (d.span.stop.column - c).toNat else 1) '^' ∧
      (carets.chars.idxOf '^' = (gutter (n + 1)).chars.length + c ↔ n + 1 < 10000) := by
  have hidx := idxOf_marks c (caretCount_pos d.span (c + 1))
  have hcarets : (caretLine c (caretCount d.span (c + 1))).chars =
      marks c (caretCount d.span (c + 1)) := chars_ofString _
  refine ⟨_, lines_render hd hsource hline hstart, ?_, ?_, ?_, ?_⟩
  · rw [gutter_eq, chars_ofString_append, chars_ofString]
  · rw [hcarets, hidx]
  · rw [hcarets, drop_marks, caretCount_eq hstart]
  · rw [hcarets, hidx, gutter_eq, chars_ofString, ← length_margin_eq_seven]
    omega

/-- The second of three lines, with carets from its second column to its third. -/
theorem render_caret_middle :
    let d : Diagnostic := { stage := .typing, message := "m", span := ⟨⟨2, 2⟩, ⟨2, 3⟩⟩ }
    let source := ofString "a\nbcd\ne"
    source.isEmpty = false ∧ source.lines[1]? = some (ofString "bcd") ∧
      ∃ carets, ((diagnostic d).render .empty source).lines =
        [ofString "Type Error: m at position 2:2 to 2:3", ofString "   1 | a",
          ofString "   2 | bcd", carets, ofString "   3 | e", .empty] ∧
        carets.chars.idxOf '^' = 8 ∧ carets.chars.drop 8 = ['^', '^'] ∧
        carets.chars.idxOf '^' = (gutter 2).chars.length + 1 := by
  intro d source
  have hsource : source.isEmpty = false := by decide
  have hline : source.lines[1]? = some (ofString "bcd") := by decide
  have hgutter : gutter 2 ++ ofString "bcd" = ofString "   2 | bcd" := by decide +kernel
  have hbefore : lineAt source.lines 1 = [ofString "   1 | a"] := by decide +kernel
  have hafter : lineAt source.lines 3 = [ofString "   3 | e"] := by decide +kernel
  have htext : d.text.lines = [ofString "Type Error: m at position 2:2 to 2:3"] := by
    decide +kernel
  obtain ⟨carets, hlines, -, hfirst, hcarets, hbelow⟩ :=
    render_caret (r := .diagnostic d) (n := 1) (c := 1) .empty rfl hsource hline rfl
  refine ⟨hsource, hline, carets, ?_, hfirst, hcarets, hbelow.mpr (by decide)⟩
  rw [hlines, hgutter, hbefore, hafter, text, htext]
  rfl

end Report

end Kotoba
