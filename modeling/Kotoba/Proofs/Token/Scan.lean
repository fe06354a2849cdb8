import Kotoba.Token.Scan

/-! Scanning as a relation between characters and kinds of tokens, without positions. A line that
is added to a text leaves the tokens before it as they are. -/
namespace Kotoba.Token

/-- What may come after a text: nothing, or a new line. -/
def Breaks (w : List Char) : Prop := ∀ ch ∈ w.head?, ch = '\n'

theorem breaks_nil : Breaks [] := fun _ h => nomatch h

theorem breaks_newline (u : List Char) : Breaks ('\n' :: u) := fun _ h => (Option.some.inj h).symm

/-- What was read, if anything, and what is left to read. -/
def seen : Except Fault Lexeme × Cursor → Option (Kind × List Char)
  | (.ok lexeme, c) => some (lexeme.kind, c.rest)
  | (.error _, _) => none

/-- What was seen with more characters after it. -/
def withMore (w : List Char) (p : Kind × List Char) : Kind × List Char := (p.1, p.2 ++ w)

section Cursors

theorem next_rest (c : Cursor) : c.next.rest = c.rest.tail := by
  unfold Cursor.next
  split <;> simp_all

theorem skip_rest (c : Cursor) (n : Nat) : (c.skip n).rest = c.rest.drop n := by
  unfold Cursor.skip
  induction n with
  | zero => rfl
  | succ n ih => rw [Nat.repeat, next_rest, ih, List.tail_drop]

end Cursors

/-- One more character of a string literal. -/
theorem readString_cons (limit : Nat) (start : Position) (length : Nat) (text : List Char)
    (ch : Char) (rest : List Char) (here last : Position) :
    readString limit start length text (ch :: rest) here last =
      if ch = '"' then (.ok (.string (String.ofList text.reverse)), ⟨rest, here.after ch, here⟩)
      else if !Text.isPrintable ch then (.error ⟨.nonPrintable ch, here⟩, ⟨ch :: rest, here, last⟩)
      else if limit < length + 1 then
        (.error ⟨.stringTooLong limit, start⟩, ⟨ch :: rest, here, last⟩)
      else if ch = '\\' then
        match rest with
        | [] => (.error ⟨.unterminated, start⟩, ⟨[], here.after ch, here⟩)
        | code :: rest =>
          match unescape? code with
          | none => (.error ⟨.invalidEscape code, here⟩, ⟨code :: rest, here.after ch, here⟩)
          | some c =>
            readString limit start (length + 1) (c :: text) rest ((here.after ch).after code)
              (here.after ch)
      else readString limit start (length + 1) (ch :: text) rest (here.after ch) here := by
  exact readString.eq_def ..

/-- Only digits are counted. -/
theorem readInteger_count {value count value' count' : Nat} {cs : List Char}
    (h : readInteger value count cs = .ok (value', count')) :
    count ≤ count' ∧ count' ≤ count + cs.length := by
  induction cs generalizing value count with
  | nil =>
    cases h
    simp
  | cons c cs ih =>
    simp only [readInteger] at h
    split at h
    · split at h
      · cases h
      · have := ih h
        simp only [List.length_cons]
        omega
    · cases h
      simp

/-- No sign is made of a character and the end of its line. -/
theorem ofChars_newline (ch : Char) : Mark.ofChars? ch (some '\n') = Mark.ofChars? ch none := by
  unfold Mark.ofChars?
  split <;> simp_all

/-- A sign of two characters needs both. -/
theorem ofChars_none (ch : Char) (m : Mark) : Mark.ofChars? ch none ≠ some (m, true) := by
  unfold Mark.ofChars?
  split <;> simp_all

/-- A number is a float if a point comes after its digits. -/
theorem readNumber_of_ok {c : Cursor} {value count : Nat}
    (h : readInteger 0 0 c.rest = .ok (value, count)) :
    readNumber c = if (c.skip count).rest.head? = some '.' then
        match (c.skip count).next.rest.takeWhile Char.isDigit with
        | [] => (.error ⟨.missingFraction, (c.skip count).next.here⟩, (c.skip count).next)
        | digits => (.ok (.float (Float.ofNat value + fraction digits)),
            (c.skip count).next.skip digits.length)
      else (.ok (.integer value), c.skip count) := by
  simp only [readNumber, h]
  split
  · next hr =>
    exact (if_pos (by rw [hr]; rfl)).symm
  · next hne =>
    refine (if_neg fun hhead => ?_).symm
    cases hr : (c.skip count).rest with
    | nil =>
      rw [hr] at hhead
      cases hhead
    | cons ch r =>
      rw [hr] at hhead
      exact hne r (by rw [hr, Option.some.inj hhead])

section Readers

variable {w : List Char} (hw : Breaks w)
include hw

theorem takeWhile_breaks {p : Char → Bool} (hp : p '\n' = false) (cs : List Char) :
    (cs ++ w).takeWhile p = cs.takeWhile p := by
  induction cs with
  | nil =>
    cases w with
    | nil => rfl
    | cons ch w =>
      rw [hw ch rfl]
      simp [hp]
  | cons c cs ih => simp [List.takeWhile_cons, ih]

theorem readInteger_breaks (value count : Nat) (cs : List Char) :
    readInteger value count (cs ++ w) = readInteger value count cs := by
  induction cs generalizing value count with
  | nil =>
    cases w with
    | nil => rfl
    | cons ch w =>
      rw [hw ch rfl]
      rfl
  | cons c cs ih => simp only [List.cons_append, readInteger, ih]

theorem readString_breaks (limit : Nat) (start start' : Position) (length : Nat)
    (text text' cs : List Char) (here last here' last' : Position) :
    seen (readString limit start' length text' (cs ++ w) here' last') =
      (seen (readString limit start length text cs here last)).map (withMore w) := by
  fun_induction readString limit start length text cs here last generalizing text' here' last' with
  | case1 =>
    cases w with
    | nil => rfl
    | cons ch w =>
      rw [hw ch rfl, List.nil_append, readString_cons, if_neg (by decide), if_pos (by decide)]
      rfl
  | case2 =>
    rw [List.cons_append, readString_cons, if_pos rfl]
    rfl
  | case3 _ _ ch rest _ _ hquote hprint =>
    rw [List.cons_append, readString_cons, if_neg hquote, if_pos hprint]
    rfl
  | case4 _ _ ch rest _ _ hquote hprint hlimit =>
    rw [List.cons_append, readString_cons, if_neg hquote, if_neg hprint, if_pos hlimit]
    rfl
  | case5 length text here last hlimit hquote hprint =>
    rw [List.cons_append, List.nil_append, readString_cons, if_neg hquote, if_neg hprint,
      if_neg hlimit, if_pos rfl]
    cases w with
    | nil => rfl
    | cons ch w =>
      rw [hw ch rfl]
      rfl
  | case6 length text here last hlimit code rest hcode hquote hprint =>
    simp only [List.cons_append]
    rw [readString_cons, if_neg hquote, if_neg hprint, if_neg hlimit, if_pos rfl]
    simp only [hcode]
    rfl
  | case7 length text here last hlimit code rest c hcode hquote hprint ih =>
    simp only [List.cons_append]
    rw [readString_cons, if_neg hquote, if_neg hprint, if_neg hlimit, if_pos rfl]
    simp only [hcode]
    exact ih _ _ _
  | case8 length text ch rest here last hquote hprint hlimit hslash ih =>
    rw [List.cons_append, readString_cons, if_neg hquote, if_neg hprint, if_neg hlimit,
      if_neg hslash]
    exact ih _ _ _

theorem readWord_breaks (limits : Limits) {c c' : Cursor} (hc : c'.rest = c.rest ++ w) :
    seen (readWord limits c') = (seen (readWord limits c)).map (withMore w) := by
  have hletters : c'.rest.takeWhile Text.isLetter = c.rest.takeWhile Text.isLetter := by
    rw [hc]
    exact takeWhile_breaks hw (by decide) _
  have hlen : (c.rest.takeWhile Text.isLetter).length ≤ c.rest.length :=
    (List.takeWhile_prefix _).length_le
  simp only [readWord, hletters]
  split
  · rfl
  · simp [seen, withMore, skip_rest, hc, List.drop_append_of_le_length hlen]

theorem readNumber_breaks {c c' : Cursor} (hc : c'.rest = c.rest ++ w) :
    seen (readNumber c') = (seen (readNumber c)).map (withMore w) := by
  have hint' : readInteger 0 0 c'.rest = readInteger 0 0 c.rest := by
    rw [hc, readInteger_breaks hw]
  cases hint : readInteger 0 0 c.rest with
  | error count =>
    rw [hint] at hint'
    simp [readNumber, hint, hint', seen]
  | ok p =>
    obtain ⟨value, count⟩ := p
    rw [hint] at hint'
    have hcount := (readInteger_count hint).2
    have hrest : (c'.skip count).rest = (c.skip count).rest ++ w := by
      rw [skip_rest, skip_rest, hc, List.drop_append_of_le_length (by omega)]
    rw [readNumber_of_ok hint, readNumber_of_ok hint']
    generalize c.skip count = whole at hrest ⊢
    generalize c'.skip count = whole' at hrest ⊢
    rw [hrest]
    by_cases hdot : whole.rest.head? = some '.'
    · have hne : whole.rest ≠ [] := by
        rintro h
        rw [h] at hdot
        cases hdot
      have hpoint : whole'.next.rest = whole.next.rest ++ w := by
        rw [next_rest, next_rest, hrest, List.tail_append_of_ne_nil hne]
      have hlen : (whole.next.rest.takeWhile Char.isDigit).length ≤ whole.next.rest.length :=
        (List.takeWhile_prefix _).length_le
      rw [if_pos hdot, if_pos (by simp [List.head?_append, hdot]), hpoint,
        takeWhile_breaks hw (by decide)]
      cases hd : whole.next.rest.takeWhile Char.isDigit with
      | nil => rfl
      | cons d ds =>
        rw [hd] at hlen
        simp only [seen, skip_rest, hpoint, List.drop_append_of_le_length hlen]
        rfl
    · have hdot' : (whole.rest ++ w).head? ≠ some '.' := by
        cases hr : whole.rest with
        | nil =>
          intro h
          exact absurd (hw _ h) (by decide)
        | cons ch r => rwa [hr] at hdot
      rw [if_neg hdot, if_neg hdot']
      simp [seen, withMore, hrest, Lexeme.kind]

theorem readSign_breaks {ch : Char} {cs : List Char} {c c' : Cursor} (hr : c.rest = ch :: cs)
    (hc : c'.rest = c.rest ++ w) :
    seen (readSign ch c') = (seen (readSign ch c)).map (withMore w) := by
  have hone : c.next.rest = cs := by rw [next_rest, hr, List.tail_cons]
  have hone' : c'.next.rest = cs ++ w := by rw [next_rest, hc, hr, List.cons_append, List.tail_cons]
  have hmark : Mark.ofChars? ch c'.next.rest.head? = Mark.ofChars? ch c.next.rest.head? := by
    rw [hone, hone']
    cases cs with
    | cons _ _ => rfl
    | nil =>
      cases w with
      | nil => rfl
      | cons d w =>
        rw [hw d rfl]
        exact ofChars_newline ch
  simp only [readSign, hmark]
  cases hm : Mark.ofChars? ch c.next.rest.head? with
  | none => rfl
  | some p =>
    obtain ⟨m, long⟩ := p
    cases long with
    | false => simp [seen, withMore, hone, hone', Lexeme.kind]
    | true =>
      have hne : cs ≠ [] := by
        rintro rfl
        rw [hone] at hm
        exact absurd hm (ofChars_none ch m)
      simp [seen, withMore, next_rest c.next, next_rest c'.next, hone, hone', Lexeme.kind,
        List.tail_append_of_ne_nil hne]

/-- What is read of a text does not change when a line is added to it. -/
theorem readLexeme_breaks (limits : Limits) {c c' : Cursor} (hne : c.rest ≠ [])
    (hc : c'.rest = c.rest ++ w) :
    seen (readLexeme limits c') = (seen (readLexeme limits c)).map (withMore w) := by
  obtain ⟨ch, cs, hr⟩ := List.exists_cons_of_ne_nil hne
  have hr' : c'.rest = ch :: (cs ++ w) := by rw [hc, hr, List.cons_append]
  simp only [readLexeme, hr, hr']
  split
  · exact readWord_breaks hw limits hc
  · split
    · exact readNumber_breaks hw hc
    · split
      · rw [next_rest, next_rest, hr, hr', List.tail_cons, List.tail_cons]
        exact readString_breaks hw _ _ _ _ _ _ _ _ _ _ _
      · exact readSign_breaks hw hr hc

end Readers

section Progress

variable {k : Kind} {r : List Char}

theorem readString_progress (limit : Nat) (start : Position) (length : Nat) (text cs : List Char)
    (here last : Position) (h : seen (readString limit start length text cs here last) = some (k, r)) :
    k ≠ .endOfInput ∧ r.length < cs.length := by
  fun_induction readString limit start length text cs here last with
  | case2 _ _ rest =>
    cases h
    exact ⟨nofun, Nat.lt_succ_self _⟩
  | case7 _ _ _ _ _ _ rest _ _ _ _ ih =>
    obtain ⟨hk, hlt⟩ := ih h
    exact ⟨hk, Nat.lt_succ_of_lt (Nat.lt_succ_of_lt hlt)⟩
  | case8 _ _ _ rest _ _ _ _ _ _ ih =>
    obtain ⟨hk, hlt⟩ := ih h
    exact ⟨hk, Nat.lt_succ_of_lt hlt⟩
  | _ => cases h

variable {c : Cursor} {ch : Char} {cs : List Char} (hr : c.rest = ch :: cs)
include hr

theorem readWord_progress (limits : Limits) (hch : Text.isLetter ch)
    (h : seen (readWord limits c) = some (k, r)) : k ≠ .endOfInput ∧ r.length < c.rest.length := by
  have hpos : 0 < (c.rest.takeWhile Text.isLetter).length := by
    simp [hr, hch]
  simp only [readWord] at h
  split at h
  · cases h
  · simp only [seen, skip_rest, Option.some.injEq, Prod.mk.injEq] at h
    obtain ⟨rfl, rfl⟩ := h
    refine ⟨?_, ?_⟩
    · split <;> exact nofun
    · rw [List.length_drop, hr, List.length_cons]
      rw [hr] at hpos
      omega

theorem readNumber_progress (hch : ch.isDigit) (h : seen (readNumber c) = some (k, r)) :
    k ≠ .endOfInput ∧ r.length < c.rest.length := by
  cases hint : readInteger 0 0 c.rest with
  | error count =>
    simp [readNumber, hint, seen] at h
  | ok p =>
    obtain ⟨value, count⟩ := p
    have hcount : 1 ≤ count := by
      rw [hr, readInteger, if_pos hch] at hint
      split at hint
      · cases hint
      · exact (readInteger_count hint).1
    have hwhole : (c.skip count).rest.length < c.rest.length := by
      rw [skip_rest, List.length_drop, hr, List.length_cons]
      omega
    rw [readNumber_of_ok hint] at h
    split at h
    · split at h
      · cases h
      · simp only [seen, skip_rest, next_rest, Option.some.injEq, Prod.mk.injEq] at h
        obtain ⟨rfl, rfl⟩ := h
        rw [skip_rest] at hwhole
        refine ⟨nofun, ?_⟩
        simp only [List.length_drop, List.length_tail] at hwhole ⊢
        omega
    · cases h
      exact ⟨nofun, hwhole⟩

theorem readSign_progress (h : seen (readSign ch c) = some (k, r)) :
    k ≠ .endOfInput ∧ r.length < c.rest.length := by
  have hone : c.next.rest = cs := by rw [next_rest, hr, List.tail_cons]
  simp only [readSign] at h
  split at h
  · simp only [seen, next_rest c.next, hone, Option.some.injEq, Prod.mk.injEq] at h
    obtain ⟨rfl, rfl⟩ := h
    refine ⟨nofun, ?_⟩
    simp only [hr, List.length_tail, List.length_cons]
    omega
  · simp only [seen, hone, Option.some.injEq, Prod.mk.injEq] at h
    obtain ⟨rfl, rfl⟩ := h
    exact ⟨nofun, by simp [hr]⟩
  · cases h

end Progress

/-- A token is no end of input, and takes a character at least. -/
theorem readLexeme_progress (limits : Limits) {c : Cursor} (hne : c.rest ≠ []) {k : Kind}
    {r : List Char} (h : seen (readLexeme limits c) = some (k, r)) :
    k ≠ .endOfInput ∧ r.length < c.rest.length := by
  obtain ⟨ch, cs, hr⟩ := List.exists_cons_of_ne_nil hne
  simp only [readLexeme, hr] at h
  split at h
  · next hch => exact readWord_progress hr limits hch h
  · split at h
    · next hch => exact readNumber_progress hr hch h
    · split at h
      · obtain ⟨hk, hlt⟩ := readString_progress _ _ _ _ _ _ _ h
        rw [next_rest, hr, List.tail_cons] at hlt
        exact ⟨hk, by rw [hr]; exact Nat.lt_succ_of_lt hlt⟩
      · exact readSign_progress hr h

/-- Passes over blanks and comments: where they end, and what comes after them. -/
def pass (gap : Gap) : List Char → Gap × List Char
  | [] => (gap, [])
  | ch :: rest =>
    match gap.after ch with
    | some gap => pass gap rest
    | none => (gap, ch :: rest)

theorem skipGap_rest (gap : Gap) (cs : List Char) (here last : Position) :
    (skipGap gap cs here last).rest = (pass gap cs).2 := by
  induction cs generalizing gap here last with
  | nil => rfl
  | cons ch cs ih =>
    simp only [skipGap, pass]
    cases gap.after ch with
    | some gap => exact ih _ _ _
    | none => rfl

theorem pass_append (gap : Gap) (cs w : List Char) :
    pass gap (cs ++ w) = if (pass gap cs).2 = [] then pass (pass gap cs).1 w
      else ((pass gap cs).1, (pass gap cs).2 ++ w) := by
  induction cs generalizing gap with
  | nil => rfl
  | cons ch cs ih =>
    simp only [List.cons_append, pass]
    obtain hgap | ⟨gap', hgap⟩ : gap.after ch = none ∨ ∃ gap', gap.after ch = some gap' := by
      cases gap.after ch <;> simp
    · simp [hgap]
    · simp only [hgap]
      exact ih gap'

theorem length_pass_le (gap : Gap) (cs : List Char) : (pass gap cs).2.length ≤ cs.length := by
  induction cs generalizing gap with
  | nil => exact Nat.le_refl _
  | cons ch cs ih =>
    simp only [pass]
    cases gap.after ch with
    | some gap => exact Nat.le_succ_of_le (ih gap)
    | none => exact Nat.le_refl _

/-- What a line leaves behind: a block comment goes on, and everything else is over. -/
def Gap.afterLine : Gap → Gap
  | .block | .blockHash => .block
  | _ => .blanks

theorem pass_newline (gap : Gap) (w : List Char) : pass gap ('\n' :: w) = pass gap.afterLine w := by
  cases gap <;> rfl

/-- What is read at the beginning of some characters. -/
def readKind (limits : Limits) (cs : List Char) : Option (Kind × List Char) :=
  seen (readLexeme limits { rest := cs })

theorem seen_readLexeme (limits : Limits) {c : Cursor} (hne : c.rest ≠ []) :
    seen (readLexeme limits c) = readKind limits c.rest := by
  have h : seen (readLexeme limits c) =
      (seen (readLexeme limits { rest := c.rest })).map (withMore []) :=
    readLexeme_breaks breaks_nil limits hne (List.append_nil _).symm
  rw [h]
  unfold readKind
  cases seen (readLexeme limits { rest := c.rest }) <;> simp [withMore]

theorem readKind_append (limits : Limits) {cs w : List Char} (hne : cs ≠ []) (hw : Breaks w) :
    readKind limits (cs ++ w) = (readKind limits cs).map (withMore w) :=
  readLexeme_breaks hw limits hne rfl

/-- The kinds of the tokens in some characters that begin in a gap, and the gap in which they end,
unless there is a fault. -/
inductive Lexes (limits : Limits) : Gap → List Char → List Kind → Option Gap → Prop
  | done {gap : Gap} {cs : List Char} (h : (pass gap cs).2 = []) :
    Lexes limits gap cs [] (some (pass gap cs).1)
  | fault {gap : Gap} {cs : List Char} (h : (pass gap cs).2 ≠ [])
    (hread : readKind limits (pass gap cs).2 = none) : Lexes limits gap cs [] none
  | token {gap : Gap} {cs : List Char} {k : Kind} {rest : List Char} {ks : List Kind}
    {ending : Option Gap} (h : (pass gap cs).2 ≠ [])
    (hread : readKind limits (pass gap cs).2 = some (k, rest))
    (hrest : Lexes limits .blanks rest ks ending) : Lexes limits gap cs (k :: ks) ending

namespace Lexes

variable {limits : Limits} {gap gap' : Gap} {cs u : List Char} {ks ks' : List Kind}
  {ending ending' : Option Gap}

theorem unique (h : Lexes limits gap cs ks ending) (h' : Lexes limits gap cs ks' ending') :
    ks = ks' ∧ ending = ending' := by
  induction h generalizing ks' ending' with
  | done h =>
    cases h' with
    | done _ => exact ⟨rfl, rfl⟩
    | fault hne _ | token hne _ _ => exact absurd h hne
  | fault h hread =>
    cases h' with
    | done hnil => exact absurd hnil h
    | fault _ _ => exact ⟨rfl, rfl⟩
    | token _ hread' _ =>
      rw [hread] at hread'
      cases hread'
  | token h hread _ ih =>
    cases h' with
    | done hnil => exact absurd hnil h
    | fault _ hread' =>
      rw [hread] at hread'
      cases hread'
    | token _ hread' hrest' =>
      rw [hread] at hread'
      cases hread'
      obtain ⟨rfl, rfl⟩ := ih hrest'
      exact ⟨rfl, rfl⟩

/-- A text goes on where the gap in which it ended goes on. -/
theorem of_pass (h : pass gap cs = pass gap' u) (hu : Lexes limits gap' u ks ending) :
    Lexes limits gap cs ks ending := by
  cases hu with
  | done hnil =>
    rw [← h] at hnil ⊢
    exact .done hnil
  | fault hne hread =>
    rw [← h] at hne hread
    exact .fault hne hread
  | token hne hread hrest =>
    rw [← h] at hne hread
    exact .token hne hread hrest

/-- A token that is there stays when a line is added. -/
theorem cons_append {k : Kind} {rest : List Char} (hne : (pass gap cs).2 ≠ [])
    (hread : readKind limits (pass gap cs).2 = some (k, rest))
    (hrest : Lexes limits .blanks (rest ++ '\n' :: u) ks ending) :
    Lexes limits gap (cs ++ '\n' :: u) (k :: ks) ending := by
  have hpass : (pass gap (cs ++ '\n' :: u)).2 = (pass gap cs).2 ++ '\n' :: u := by
    rw [pass_append, if_neg hne]
  refine .token (by rw [hpass]; simp) ?_ hrest
  rw [hpass, readKind_append limits hne (breaks_newline u), hread]
  rfl

/-- After a new line, a text without a fault goes on. -/
theorem append (h : Lexes limits gap cs ks (some gap'))
    (hu : Lexes limits gap'.afterLine u ks' ending) :
    Lexes limits gap (cs ++ '\n' :: u) (ks ++ ks') ending := by
  generalize he : some gap' = e at h
  induction h with
  | done h =>
    cases he
    refine of_pass ?_ hu
    rw [pass_append, if_pos h, pass_newline]
  | fault _ _ => cases he
  | token hne hread _ ih => exact cons_append hne hread (ih he)

/-- A fault stays. -/
theorem append_fault (h : Lexes limits gap cs ks none) (u : List Char) :
    Lexes limits gap (cs ++ '\n' :: u) ks none := by
  generalize he : none = e at h
  induction h with
  | done _ => cases he
  | fault hne hread =>
    rename_i gap cs
    have hpass : (pass gap (cs ++ '\n' :: u)).2 = (pass gap cs).2 ++ '\n' :: u := by
      rw [pass_append, if_neg hne]
    refine .fault (by rw [hpass]; simp) ?_
    rw [hpass, readKind_append limits hne (breaks_newline u), hread]
    rfl
  | token hne hread _ ih => exact cons_append hne hread (ih he)

end Lexes

/-- One token is scanned, or the end of the text, or there is a fault. -/
theorem scan_cases (limits : Limits) (c : Cursor) :
    ((pass .blanks c.rest).2 = [] ∧
      ∃ t c', scan limits c = (.ok t, c') ∧ t.lexeme = .endOfInput) ∨
    (pass .blanks c.rest).2 ≠ [] ∧
      ((readKind limits (pass .blanks c.rest).2 = none ∧ ∃ f c', scan limits c = (.error f, c')) ∨
        ∃ t c', scan limits c = (.ok t, c') ∧ t.kind ≠ .endOfInput ∧
          readKind limits (pass .blanks c.rest).2 = some (t.kind, c'.rest)) := by
  have hrest := skipGap_rest .blanks c.rest c.here c.last
  simp only [scan]
  generalize skipGap .blanks c.rest c.here c.last = c₀ at hrest ⊢
  rw [← hrest]
  by_cases hnil : c₀.rest = []
  · have hread : readLexeme limits c₀ = (.ok .endOfInput, c₀) := by rw [readLexeme, hnil]
    exact .inl ⟨hnil, _, _, by rw [hread], rfl⟩
  · refine .inr ⟨hnil, ?_⟩
    rw [← seen_readLexeme limits hnil]
    cases hread : readLexeme limits c₀ with
    | mk result c' =>
      cases result with
      | error f => exact .inl ⟨rfl, f, c', rfl⟩
      | ok lexeme =>
        have hkind : lexeme.kind ≠ .endOfInput :=
          (readLexeme_progress limits hnil (by rw [hread]; rfl)).1
        refine .inr ⟨⟨lexeme, c₀.here, c'.last⟩, c', ?_, hkind, rfl⟩
        cases lexeme with
        | endOfInput => exact absurd rfl hkind
        | _ => rfl

/-- What a scan yields: the kinds of its tokens, and a fault at the end if there is no gap. -/
structure Scan.Yields (a : Scan) (ks : List Kind) (ending : Option Gap) : Prop where
  kinds : a.tokens.map Token.kind = ks
  ending : (∃ e, a.ending = .ok e) ↔ ending.isSome

/-- Scanning finds the tokens. -/
theorem scanAll_lexes (limits : Limits) (fuel : Nat) (c : Cursor) (h : c.rest.length < fuel) :
    ∃ ks ending, Lexes limits .blanks c.rest ks ending ∧
      (scanAll limits fuel c).Yields ks ending := by
  induction fuel generalizing c with
  | zero => exact absurd h (Nat.not_lt_zero _)
  | succ fuel ih =>
    rw [scanAll]
    obtain ⟨hnil, t, c', hscan, ht⟩ | ⟨hne, ⟨hread, f, c', hscan⟩ | ⟨t, c', hscan, ht, hread⟩⟩ :=
      scan_cases limits c
    · refine ⟨[], _, .done hnil, ?_⟩
      rw [hscan]
      dsimp only
      rw [ht]
      exact ⟨rfl, by simp⟩
    · refine ⟨[], none, .fault hne hread, ?_⟩
      rw [hscan]
      exact ⟨rfl, by simp⟩
    · have hlt : c'.rest.length < c.rest.length :=
        Nat.lt_of_lt_of_le (readLexeme_progress limits hne hread).2 (length_pass_le _ _)
      obtain ⟨ks, ending, hrest, hyields⟩ := ih c' (by omega)
      refine ⟨t.kind :: ks, ending, .token hne hread hrest, ?_⟩
      rw [hscan]
      dsimp only
      split
      · next he => exact absurd (by rw [Token.kind, he]; rfl) ht
      · exact ⟨by simp [hyields.kinds], hyields.ending⟩

end Kotoba.Token
