import Mathlib.Data.List.TakeWhile
import Kotoba.Proofs.Text.Bytes
import Kotoba.Proofs.Token.Place

/-! Positions and lines. A position in a text lies on one of its lines, in a column that the line
has or in the one after its last. -/
namespace Kotoba

/-- A list in pieces, between which `x` stands. -/
inductive Lines {α : Type} (x : α) : List α → List (List α) → Prop
  | last {l : List α} (free : x ∉ l) : Lines x l [l]
  | more {l rest : List α} {ls : List (List α)} (free : x ∉ l) (others : Lines x rest ls) :
    Lines x (l ++ x :: rest) (l :: ls)

/-- None of the pieces contains what stands between them. -/
theorem Lines.not_mem_of_mem {α : Type} {x : α} {l p : List α} {ls : List (List α)}
    (h : Lines x l ls) (hp : p ∈ ls) : x ∉ p := by
  induction h with
  | last free =>
    rw [List.mem_singleton.mp hp]
    exact free
  | more free _ ih =>
    obtain rfl | hp := List.mem_cons.mp hp
    · exact free
    · exact ih hp

namespace Bytes

theorem ofList_append (bs cs : List UInt8) : ofList (bs ++ cs) = ofList bs ++ ofList cs := by
  apply ByteArray.ext
  simp [ofList, ByteArray.data_append]

theorem splitList_lines (x : UInt8) (piece bs : List UInt8) (hpiece : x ∉ piece) :
    Lines x (piece.reverse ++ bs) (splitList [x] 0 piece bs) := by
  induction bs generalizing piece with
  | nil =>
    rw [List.append_nil]
    exact .last (by simpa using hpiece)
  | cons b bs ih =>
    by_cases hb : x = b
    · subst hb
      have hfree : x ∉ piece.reverse := by simpa using hpiece
      simpa [splitList, List.isPrefixOf] using Lines.more hfree (ih [] (by simp))
    · have hrest := ih (b :: piece) (by simp [hb, hpiece])
      simpa [splitList, List.isPrefixOf, hb] using hrest

/-- Two lists with a separator between them are split one after the other. -/
theorem splitList_append (x : UInt8) (piece as bs : List UInt8) :
    splitList [x] 0 piece (as ++ x :: bs) = splitList [x] 0 piece as ++ splitList [x] 0 [] bs := by
  induction as generalizing piece with
  | nil => simp [splitList, List.isPrefixOf]
  | cons a as ih =>
    by_cases ha : x = a
    · subst ha
      simp [splitList, List.isPrefixOf, ih]
    · simp [splitList, List.isPrefixOf, ha, ih]

/-- Two texts with a separator between them are split one after the other. -/
theorem splitOn_append (x : UInt8) (a b : Bytes) :
    splitOn (a ++ ofList [x] ++ b) (ofList [x]) =
      a.splitOn (ofList [x]) ++ b.splitOn (ofList [x]) := by
  have hlist : toList (a ++ ofList [x] ++ b) = a.toList ++ x :: b.toList := by
    rw [toList_append, toList_append, toList_ofList, List.append_assoc, List.singleton_append]
  rw [splitOn, splitOn, splitOn, hlist, toList_ofList, splitList_append, List.map_append]

/-- The separator is in none of the pieces. -/
theorem not_mem_of_mem_splitOn {x : UInt8} {text piece : Bytes}
    (h : piece ∈ text.splitOn (ofList [x])) : x ∉ piece.toList := by
  obtain ⟨l, hl, rfl⟩ := List.mem_map.mp h
  exact (splitList_lines x [] text.toList (by simp)).not_mem_of_mem hl

/-- A text without the separator is one piece. -/
theorem splitOn_of_not_mem {x : UInt8} {b : Bytes} (h : x ∉ b.toList) :
    b.splitOn (ofList [x]) = [b] := by
  have hwhole : ∀ {bytes : List UInt8} {pieces : List (List UInt8)}, Lines x bytes pieces →
      x ∉ bytes → pieces = [bytes] := by
    intro bytes pieces hpieces hfree
    cases hpieces with
    | last => rfl
    | more => exact absurd (by simp) hfree
  rw [splitOn, toList_ofList, hwhole (splitList_lines x [] b.toList (by simp)) h]
  rfl

private theorem newline_eq : ofString "\n" = ofList [0x0a] := by decide

theorem lines_append_newline (a b : Bytes) : lines (a ++ "\n" ++ b) = a.lines ++ b.lines := by
  rw [lines, lines, lines, newline_eq, splitOn_append]

/-- There is no line feed in a line. -/
theorem newline_not_mem_lines {text line : Bytes} (h : line ∈ text.lines) :
    0x0a ∉ line.toList := by
  rw [lines, newline_eq] at h
  exact not_mem_of_mem_splitOn h

/-- A text without line feeds is one line. -/
theorem lines_of_not_mem {b : Bytes} (h : 0x0a ∉ b.toList) : b.lines = [b] := by
  rw [lines, newline_eq, splitOn_of_not_mem h]

/-- A line feed is shown where its byte stands and nowhere else. -/
theorem newline_not_mem_chars {b : Bytes} (h : 0x0a ∉ b.toList) : '\n' ∉ b.chars := by
  have hpiece : ∀ p : Text.Piece, 0x0a ∉ p.bytes.toList → p.shown ≠ '\n' := by
    intro p hp hshown
    cases p with
    | stray b => exact absurd (show '\uFFFD' = '\n' from hshown) (by decide)
    | char c =>
      obtain rfl : c = '\n' := hshown
      exact hp (by decide)
  have hpieces : ∀ ps : List Text.Piece, 0x0a ∉ (ofPieces ps).toList →
      '\n' ∉ ps.map Text.Piece.shown := by
    intro ps
    induction ps with
    | nil => simp
    | cons p ps ih =>
      intro hps
      rw [ofPieces, toList_append, List.mem_append, not_or] at hps
      rw [List.map_cons, List.mem_cons, not_or]
      exact ⟨(hpiece p hps.1).symm, ih hps.2⟩
  rw [chars_eq_map]
  exact hpieces _ (by rwa [ofPieces_pieces])

theorem lines_chars {bs : List UInt8} {ls : List (List UInt8)} (h : Lines 0x0a bs ls) :
    Lines '\n' (ofList bs).chars ((ls.map ofList).map chars) := by
  have hfree : ∀ l : List UInt8, 0x0a ∉ l → '\n' ∉ (ofList l).chars := fun l hl =>
    newline_not_mem_chars (by simpa [toList, ofList] using hl)
  induction h with
  | last free => exact .last (hfree _ free)
  | @more l rest ls free _ ih =>
    have hfeed : ofList (l ++ 0x0a :: rest) = ofList l ++ ofString "\n" ++ ofList rest := by
      rw [show (0x0a :: rest) = [0x0a] ++ rest from rfl, ofList_append, ofList_append,
        ByteArray.append_assoc, show ofList [0x0a] = ofString "\n" by decide]
    rw [hfeed, chars_append_newline]
    exact .more (hfree l free) ih

/-- The lines of a text hold its characters, up to the line feeds between them. -/
theorem lines_lines (text : Bytes) : Lines '\n' text.chars (text.lines.map chars) := by
  have hsplit := splitList_lines 0x0a [] text.toList (by simp)
  have htext : ofList text.toList = text := rfl
  have hchars := lines_chars hsplit
  rw [List.reverse_nil, List.nil_append, htext] at hchars
  exact hchars

end Bytes

namespace Position

/-- A position that is not after another one. -/
def Le (p q : Position) : Prop := p.line < q.line ∨ p.line = q.line ∧ p.column ≤ q.column

instance (p q : Position) : Decidable (p.Le q) := inferInstanceAs (Decidable (_ ∨ _))

theorem Le.trans {p q r : Position} (hpq : p.Le q) (hqr : q.Le r) : p.Le r := by
  unfold Le at *
  omega

theorem Le.refl (p : Position) : p.Le p := .inr ⟨rfl, Int.le_refl _⟩

/-- A position that is before another one. -/
def Lt (p q : Position) : Prop := p.line < q.line ∨ p.line = q.line ∧ p.column < q.column

instance (p q : Position) : Decidable (p.Lt q) := inferInstanceAs (Decidable (_ ∨ _))

theorem Lt.le {p q : Position} (h : p.Lt q) : p.Le q := by
  unfold Lt at h
  unfold Le
  omega

theorem Lt.trans_le {p q r : Position} (hpq : p.Lt q) (hqr : q.Le r) : p.Lt r := by
  unfold Lt Le at *
  omega

theorem Le.trans_lt {p q r : Position} (hpq : p.Le q) (hqr : q.Lt r) : p.Lt r := by
  unfold Lt Le at *
  omega

theorem Lt.ne {p q : Position} (h : p.Lt q) : p ≠ q := by
  rintro rfl
  unfold Lt at h
  omega

theorem lt_after (p : Position) (c : Char) : p.Lt (p.after c) := by
  unfold Lt after
  split <;> dsimp only <;> omega

theorem le_after (p : Position) (c : Char) : p.Le (p.after c) := (lt_after p c).le

theorem past_le {text : List Char} {i j : Nat} (h : i ≤ j) :
    (past (text.take i)).Le (past (text.take j)) := by
  induction h with
  | refl => exact .inr ⟨rfl, Int.le_refl _⟩
  | @step j _ ih =>
    cases hc : text[j]? with
    | none =>
      rw [List.take_add_one, hc, Option.toList_none, List.append_nil]
      exact ih
    | some c =>
      rw [List.take_add_one, hc, Option.toList_some, past_concat]
      exact ih.trans (le_after _ _)

theorem past_lt {text : List Char} {i j : Nat} (h : i < j) (hj : j ≤ text.length) :
    (past (text.take i)).Lt (past (text.take j)) := by
  have hnext : (past (text.take i)).Lt (past (text.take (i + 1))) := by
    rw [List.take_add_one, List.getElem?_eq_getElem (Nat.lt_of_lt_of_le h hj), Option.toList_some,
      past_concat]
    exact lt_after _ _
  exact hnext.trans_le (past_le h)

/-- The position of a character of a text, or that after the last one. -/
def In (text : List Char) (p : Position) : Prop :=
  ∃ i, i ≤ text.length ∧ p = .past (text.take i)

theorem in_past (text : List Char) (n : Nat) : (past (text.take n)).In text :=
  ⟨min n text.length, Nat.min_le_right _ _, by rw [← List.take_eq_take_min]⟩

@[simp] theorem isUnknown_past (before : List Char) : (past before).isUnknown = false := by
  have hline : ((before.count '\n' : Int) + 1 == 0) = false := by
    rw [beq_eq_false_iff_ne]
    omega
  simp [isUnknown, past, hline]

/-- A line feed begins a new line, whatever came before it. -/
theorem past_newline (before after : List Char) :
    past (before ++ '\n' :: after) =
      ⟨(before.count '\n' : Int) + 1 + (past after).line, (past after).column⟩ := by
  have hcolumn : ∀ ys zs : List Char,
      (ys ++ '\n' :: zs).takeWhile (· ≠ '\n') = ys.takeWhile (· ≠ '\n') := by
    intro ys zs
    induction ys with
    | nil => simp
    | cons y ys ih =>
      simp only [List.cons_append, List.takeWhile_cons]
      rw [ih]
  simp only [past, List.reverse_append, List.reverse_cons, List.append_assoc, List.singleton_append,
    hcolumn, List.count_append, List.count_cons_self]
  congr 1
  push_cast
  omega

theorem past_of_free {before : List Char} (h : '\n' ∉ before) :
    past before = ⟨1, before.length + 1⟩ := by
  have hall : before.reverse.takeWhile (· ≠ '\n') = before.reverse := by
    rw [List.takeWhile_eq_self_iff]
    intro c hc
    have hne : c ≠ '\n' := fun heq => h (by simpa [heq] using hc)
    simpa using hne
  simp only [past, hall, List.count_eq_zero_of_not_mem h, List.length_reverse]
  rfl

/-- A position in a text that is given by its lines. -/
theorem past_on_line {cs : List Char} {ls : List (List Char)} (h : Lines '\n' cs ls) (i : Nat) :
    ∃ (n : Nat) (l : List Char), ls[n]? = some l ∧ (past (cs.take i)).line = n + 1 ∧
      1 ≤ (past (cs.take i)).column ∧ (past (cs.take i)).column ≤ l.length + 1 := by
  -- the first line, on which there is no line feed
  have hfirst : ∀ (i : Nat) {l : List Char} (ls : List (List Char)), '\n' ∉ l →
      ∃ (n : Nat) (k : List Char), (l :: ls)[n]? = some k ∧ (past (l.take i)).line = n + 1 ∧
        1 ≤ (past (l.take i)).column ∧ (past (l.take i)).column ≤ k.length + 1 := by
    intro i l ls hl
    have hfree : '\n' ∉ l.take i := fun hmem => hl (List.mem_of_mem_take hmem)
    refine ⟨0, l, rfl, ?_⟩
    rw [past_of_free hfree, List.length_take]
    dsimp only
    omega
  induction h generalizing i with
  | last free => exact hfirst i [] free
  | @more l rest ls free _ ih =>
    by_cases hi : i ≤ l.length
    · rw [List.take_append_of_le_length hi]
      exact hfirst i ls free
    · obtain ⟨k, rfl⟩ : ∃ k, i = l.length + (k + 1) := ⟨i - l.length - 1, by omega⟩
      obtain ⟨n, line, hline, hn, hlow, hhigh⟩ := ih k
      rw [List.take_length_add_append, List.take_succ_cons, past_newline,
        List.count_eq_zero_of_not_mem free]
      exact ⟨n + 1, line, hline, by simp only [hn]; push_cast; omega, hlow, hhigh⟩

/-- A position in a text has a line of it, and a column on that or the one after its last. -/
theorem In.on_line {text : Bytes} {p : Position} (h : p.In text.chars) :
    ∃ (n : Nat) (line : Bytes), text.lines[n]? = some line ∧ p.line = n + 1 ∧ 1 ≤ p.column ∧
      p.column ≤ line.length + 1 := by
  obtain ⟨i, -, rfl⟩ := h
  obtain ⟨n, l, hl, hline, hlow, hhigh⟩ := past_on_line (Bytes.lines_lines text) i
  rw [List.getElem?_map] at hl
  obtain ⟨line, hget, rfl⟩ := Option.map_eq_some_iff.mp hl
  rw [← Bytes.length_eq_length_chars] at hhigh
  exact ⟨n, line, hget, hline, hlow, hhigh⟩

end Position

namespace Span

/-- A span in a text: from a position in it to one that is not before. -/
def In (text : List Char) (span : Span) : Prop :=
  ∃ i j, i ≤ j ∧ j ≤ text.length ∧ span.start = .past (text.take i) ∧
    span.stop = .past (text.take j)

theorem in_point {text : List Char} {p : Position} (h : p.In text) : (point p).In text := by
  obtain ⟨i, hi, hp⟩ := h
  exact ⟨i, i, Nat.le_refl i, hi, hp, hp⟩

variable {text : List Char} {span : Span}

theorem In.start (h : span.In text) : span.start.In text := by
  obtain ⟨i, j, hij, hj, hstart, -⟩ := h
  exact ⟨i, Nat.le_trans hij hj, hstart⟩

theorem In.le (h : span.In text) : span.start.Le span.stop := by
  obtain ⟨i, j, hij, -, hstart, hstop⟩ := h
  rw [hstart, hstop]
  exact Position.past_le hij

theorem In.isUnknown_start (h : span.In text) : span.start.isUnknown = false := by
  obtain ⟨i, -, hstart⟩ := h.start
  rw [hstart, Position.isUnknown_past]

theorem In.isUnknown_stop (h : span.In text) : span.stop.isUnknown = false := by
  obtain ⟨_, j, _, _, _, hstop⟩ := h
  rw [hstop, Position.isUnknown_past]

end Span

end Kotoba
