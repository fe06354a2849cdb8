import Kotoba.Proofs.Token.Spell

/-! Where tokens stand. The positions of a token are those of the first and the last character of
its spelling, and nothing but blanks and comments is passed over to come to it. -/
namespace Kotoba

/-- The position of a character that comes after the given ones: one more line than there were
newlines, and one more column than there were characters since the last of them. -/
def Position.past (before : List Char) : Position where
  line := before.count '\n' + 1
  column := (before.reverse.takeWhile (· ≠ '\n')).length + 1

theorem Position.past_concat (before : List Char) (c : Char) :
    past (before ++ [c]) = (past before).after c := by
  by_cases hc : c = '\n'
  · subst hc
    simp [past, after, List.count_append]
  · have hcount : [c].count '\n' = 0 := by simp [hc]
    simp [past, after, hc, List.count_append, hcount]

namespace Token

section Spellings

/-- What is written between the quotes of a string literal, and the characters it stands for. -/
inductive Quotes : List Char → List Char → Prop
  | nil : Quotes [] []
  | plain {c : Char} {cs text : List Char} (hprint : Text.isPrintable c) (hquote : c ≠ '"')
    (hslash : c ≠ '\\') (h : Quotes cs text) : Quotes (c :: cs) (c :: text)
  | escape {code c : Char} {cs text : List Char} (hcode : unescape? code = some c)
    (h : Quotes cs text) : Quotes ('\\' :: code :: cs) (c :: text)

/-- The ways in which tokens are spelled. Numbers may have zeros in front. -/
inductive Spells : List Char → Lexeme → Prop
  | sign {m : Mark} (hm : m ∈ Mark.signs) : Spells m.name.toList (.mark m "")
  | reserved {word : String} {m : Mark} (h : Mark.ofWord? word = some m) :
    Spells word.toList (.mark m word)
  | name {word : String} (hne : word ≠ "") (hletters : ∀ c ∈ word.toList, Text.isLetter c)
    (hfree : Mark.ofWord? word = none) : Spells word.toList (.identifier word)
  | integer {digits : List Char} (hne : digits ≠ []) (hdigits : ∀ c ∈ digits, c.isDigit) :
    Spells digits (.integer (Nat.ofDigitChars 10 digits 0))
  | float {digits decimals : List Char} (hne : digits ≠ []) (hdigits : ∀ c ∈ digits, c.isDigit)
    (hne' : decimals ≠ []) (hdecimals : ∀ c ∈ decimals, c.isDigit) :
    Spells (digits ++ '.' :: decimals)
      (.float (Float.ofNat (Nat.ofDigitChars 10 digits 0) + fraction decimals))
  | string {cs text : List Char} (h : Quotes cs text) :
    Spells ('"' :: (cs ++ ['"'])) (.string (String.ofList text))

theorem Quotes.one_line {cs text : List Char} (h : Quotes cs text) : '\n' ∉ cs := by
  induction h with
  | nil => simp
  | @plain c cs text hprint _ _ _ ih =>
    have hc : '\n' ≠ c := by
      rintro rfl
      exact absurd hprint (by decide +kernel)
    simp [hc, ih]
  | @escape code c cs text hcode _ ih =>
    have hc : '\n' ≠ code := by
      rintro rfl
      cases hcode
    simp [hc, ih]

/-- A token ends on the line on which it begins. -/
theorem Spells.one_line {cs : List Char} {l : Lexeme} (h : Spells cs l) : '\n' ∉ cs := by
  have hdigit : ∀ {ds : List Char}, (∀ c ∈ ds, c.isDigit) → '\n' ∉ ds := fun hds hin =>
    absurd (hds _ hin) (by decide)
  have hletter : ∀ {ds : List Char}, (∀ c ∈ ds, Text.isLetter c) → '\n' ∉ ds := fun hds hin =>
    absurd (hds _ hin) (by decide)
  cases h with
  | sign hm =>
    have hall : ∀ m ∈ Mark.signs, '\n' ∉ m.name.toList := by decide
    exact hall _ hm
  | reserved hword => exact hletter (isLetter_of_ofWord hword)
  | name _ hletters _ => exact hletter hletters
  | integer _ hdigits => exact hdigit hdigits
  | float _ hdigits _ hdecimals => simp [hdigit hdigits, hdigit hdecimals]
  | string hquotes => simp [hquotes.one_line]

end Spellings

section Cursors

/-- A cursor before character `n` of a text. -/
structure Cursor.At (text : List Char) (n : Nat) (c : Cursor) : Prop where
  rest : c.rest = text.drop n
  here : c.here = Position.past (text.take n)
  last : 0 < n → c.last = Position.past (text.take (n - 1))

theorem skip_succ (c : Cursor) (k : Nat) : c.skip (k + 1) = (c.skip k).next := rfl

theorem skip_add (c : Cursor) (j k : Nat) : (c.skip j).skip k = c.skip (j + k) := by
  induction k with
  | zero => rfl
  | succ k ih => rw [← Nat.add_assoc, skip_succ, skip_succ, ih]

namespace Cursor.At

variable {text : List Char} {n : Nat} {c : Cursor}

theorem next (h : c.At text n) (hne : c.rest ≠ []) : c.next.At text (n + 1) := by
  obtain ⟨ch, rest, hr⟩ := List.exists_cons_of_ne_nil hne
  have hdrop : text.drop n = ch :: rest := h.rest.symm.trans hr
  have htake : text.take (n + 1) = text.take n ++ [ch] := by
    rw [List.take_add_one, ← List.head?_drop, hdrop]
    rfl
  have hnext : c.next = ⟨rest, c.here.after ch, c.here⟩ := by
    rw [Cursor.next, hr]
  rw [hnext]
  refine ⟨?_, ?_, fun _ => h.here⟩
  · rw [List.drop_add_one_eq_tail_drop, hdrop, List.tail_cons]
  · rw [h.here, htake, Position.past_concat]

theorem skip (h : c.At text n) {k : Nat} (hk : k ≤ c.rest.length) :
    (c.skip k).At text (n + k) := by
  induction k with
  | zero => exact h
  | succ k ih =>
    refine (ih (Nat.le_of_succ_le hk)).next fun hnil => ?_
    have hlength := congrArg List.length hnil
    rw [skip_rest, List.length_drop, List.length_nil] at hlength
    omega

end Cursor.At

end Cursors

section Readers

/-- A cursor has been moved over some characters. -/
structure Moves (c : Cursor) (cs : List Char) (c' : Cursor) : Prop where
  rest : c.rest = cs ++ c'.rest
  moved : c' = c.skip cs.length

theorem Cursor.At.moves {text : List Char} {n : Nat} {c c' : Cursor} {cs : List Char}
    (h : c.At text n) (hmoves : Moves c cs c') : c'.At text (n + cs.length) := by
  rw [hmoves.moved]
  apply h.skip
  rw [hmoves.rest, List.length_append]
  exact Nat.le_add_right _ _

theorem Moves.of_skip {c : Cursor} {cs rest : List Char} (h : c.rest = cs ++ rest) :
    Moves c cs (c.skip cs.length) :=
  ⟨by rw [skip_rest, h, List.drop_left], rfl⟩

theorem Moves.trans {c c' c'' : Cursor} {cs ds : List Char} (h : Moves c cs c')
    (h' : Moves c' ds c'') : Moves c (cs ++ ds) c'' :=
  ⟨by rw [h.rest, h'.rest, List.append_assoc],
    by rw [h'.moved, h.moved, skip_add, List.length_append]⟩

theorem Moves.next {c : Cursor} {ch : Char} {rest : List Char} (h : c.rest = ch :: rest) :
    Moves c [ch] c.next := show Moves c [ch] (c.skip [ch].length) from Moves.of_skip h

/-- A character of a cursor that is given in parts. -/
theorem moves_cons (ch : Char) (rest : List Char) (here last : Position) :
    Moves ⟨ch :: rest, here, last⟩ [ch] ⟨rest, here.after ch, here⟩ := Moves.next rfl

theorem skipGap_moves (gap : Gap) (cs : List Char) (here last : Position) :
    ∃ w, Moves ⟨cs, here, last⟩ w (skipGap gap cs here last) := by
  induction cs generalizing gap here last with
  | nil => exact ⟨[], rfl, rfl⟩
  | cons ch cs ih =>
    simp only [skipGap]
    cases gap.after ch with
    | some gap' =>
      obtain ⟨w, hw⟩ := ih gap' (here.after ch) here
      exact ⟨_, (moves_cons ch cs here last).trans hw⟩
    | none => exact ⟨[], rfl, rfl⟩

theorem readString_moves {limit : Nat} {start : Position} {length : Nat} {text cs : List Char}
    {here last : Position} {l : Lexeme} {c' : Cursor}
    (h : readString limit start length text cs here last = (.ok l, c')) :
    ∃ body said, Quotes body said ∧ l = .string (String.ofList (text.reverse ++ said)) ∧
      Moves ⟨cs, here, last⟩ (body ++ ['"']) c' := by
  fun_induction readString limit start length text cs here last with
  | case2 length text rest here last =>
    cases h
    exact ⟨[], [], .nil, by simp, moves_cons '"' rest here last⟩
  | case7 length text here last hlimit code rest c hcode hquote hprint ih =>
    obtain ⟨body, said, hquotes, rfl, hmoves⟩ := ih h
    refine ⟨'\\' :: code :: body, c :: said, .escape hcode hquotes, by simp, ?_⟩
    exact (moves_cons _ _ here last).trans ((moves_cons _ _ _ _).trans hmoves)
  | case8 length text ch rest here last hquote hprint hlimit hslash ih =>
    obtain ⟨body, said, hquotes, rfl, hmoves⟩ := ih h
    refine ⟨ch :: body, ch :: said, .plain (by simpa using hprint) hquote hslash hquotes, by simp,
      ?_⟩
    exact (moves_cons _ _ here last).trans hmoves
  | _ => cases h

theorem readInteger_reads {value count : Nat} {cs : List Char} {value' count' : Nat}
    (h : readInteger value count cs = .ok (value', count')) :
    ∃ digits rest, cs = digits ++ rest ∧ (∀ c ∈ digits, c.isDigit) ∧
      value' = Nat.ofDigitChars 10 digits value ∧ count' = count + digits.length ∧
      ∀ c ∈ rest.head?, c.isDigit = false := by
  induction cs generalizing value count with
  | nil =>
    cases h
    exact ⟨[], [], rfl, by simp, Nat.ofDigitChars_nil.symm, rfl, by simp⟩
  | cons c cs ih =>
    rw [readInteger] at h
    split at h
    · next hdigit =>
      split at h
      · cases h
      · obtain ⟨digits, rest, rfl, hdigits, rfl, rfl, hrest⟩ := ih h
        refine ⟨c :: digits, rest, rfl, ?_, ?_, by simp [Nat.add_assoc, Nat.add_comm 1], hrest⟩
        · simpa [hdigit] using hdigits
        · rw [Nat.ofDigitChars_cons, digitValue, Nat.mul_comm]
          rfl
    · next hdigit =>
      cases h
      exact ⟨[], c :: cs, rfl, by simp, Nat.ofDigitChars_nil.symm, rfl, by simpa using hdigit⟩

theorem ofChars_name {ch : Char} {next : Option Char} {m : Mark} {long : Bool}
    (h : Mark.ofChars? ch next = some (m, long)) :
    m.name.toList = ch :: (if long then next.toList else []) := by
  unfold Mark.ofChars? at h
  split at h <;> cases h <;> rfl

variable {limits : Limits} {c c' : Cursor} {ch : Char} {cs : List Char} {l : Lexeme}

theorem readWord_moves (hc : c.rest = ch :: cs) (hch : Text.isLetter ch)
    (h : readWord limits c = (.ok l, c')) : ∃ word, Spells word l ∧ Moves c word c' := by
  have hsplit : c.rest = c.rest.takeWhile Text.isLetter ++ c.rest.dropWhile Text.isLetter :=
    List.takeWhile_append_dropWhile.symm
  have hletters : ∀ d ∈ c.rest.takeWhile Text.isLetter, Text.isLetter d := fun d hd =>
    List.all_eq_true.mp List.all_takeWhile d hd
  have hne : String.ofList (c.rest.takeWhile Text.isLetter) ≠ "" := by
    simp [hc, hch, String.ofList_eq_empty_iff]
  simp only [readWord] at h
  split at h
  · cases h
  · cases h
    refine ⟨_, ?_, Moves.of_skip hsplit⟩
    split
    · next m hm => simpa only [String.toList_ofList] using Spells.reserved hm
    · next hnone =>
      have hname := Spells.name hne (by rwa [String.toList_ofList]) hnone
      rwa [String.toList_ofList] at hname

theorem readNumber_moves (hc : c.rest = ch :: cs) (hch : ch.isDigit)
    (h : readNumber c = (.ok l, c')) : ∃ digits, Spells digits l ∧ Moves c digits c' := by
  cases hint : readInteger 0 0 c.rest with
  | error count =>
    rw [readNumber, hint] at h
    cases h
  | ok p =>
    obtain ⟨value, count⟩ := p
    obtain ⟨digits, rest, hsplit, hdigits, rfl, rfl, hrest⟩ := readInteger_reads hint
    rw [Nat.zero_add] at hint
    have hne : digits ≠ [] := by
      rintro rfl
      rw [List.nil_append] at hsplit
      rw [← hsplit, hc] at hrest
      exact absurd hch (by simp [hrest ch rfl])
    have hwhole : Moves c digits (c.skip digits.length) := Moves.of_skip hsplit
    rw [readNumber_of_ok hint] at h
    generalize c.skip digits.length = whole at h hwhole
    split at h
    · next hpoint =>
      obtain ⟨after, hafter⟩ : ∃ after, whole.rest = '.' :: after := by
        cases hw : whole.rest with
        | nil =>
          rw [hw] at hpoint
          cases hpoint
        | cons d after =>
          rw [hw] at hpoint
          exact ⟨after, by rw [Option.some.inj hpoint]⟩
      split at h
      · cases h
      · next hne' =>
        cases h
        refine ⟨_, .float hne hdigits (fun hnil => hne' hnil) fun d hd =>
          List.all_eq_true.mp List.all_takeWhile d hd, ?_⟩
        exact hwhole.trans ((Moves.next hafter).trans
          (Moves.of_skip List.takeWhile_append_dropWhile.symm))
    · cases h
      exact ⟨digits, .integer hne hdigits, hwhole⟩

theorem readSign_moves (hc : c.rest = ch :: cs) (h : readSign ch c = (.ok l, c')) :
    ∃ sign, Spells sign l ∧ Moves c sign c' := by
  have hone : Moves c [ch] c.next := Moves.next hc
  simp only [readSign] at h
  split at h
  · next m hm =>
    cases h
    have hname := ofChars_name hm
    cases hnext : c.next.rest with
    | nil =>
      rw [hnext] at hm
      exact absurd hm (ofChars_none ch m)
    | cons d ds =>
      rw [hnext] at hname
      refine ⟨m.name.toList, .sign (mem_signs_of_ofChars hm), ?_⟩
      rw [hname]
      exact hone.trans (Moves.next hnext)
  · next m hm =>
    cases h
    have hname := ofChars_name hm
    refine ⟨m.name.toList, .sign (mem_signs_of_ofChars hm), ?_⟩
    rw [hname]
    exact hone
  · cases h

/-- What is read is spelled by the characters that are passed over. -/
theorem readLexeme_moves (hne : c.rest ≠ []) (h : readLexeme limits c = (.ok l, c')) :
    ∃ cs, Spells cs l ∧ Moves c cs c' := by
  obtain ⟨ch, cs, hc⟩ := List.exists_cons_of_ne_nil hne
  simp only [readLexeme, hc] at h
  split at h
  · next hch => exact readWord_moves hc hch h
  · split at h
    · next hch => exact readNumber_moves hc hch h
    · split at h
      · next hquote =>
        obtain ⟨body, said, hquotes, rfl, hmoves⟩ := readString_moves h
        rw [hquote] at hc
        exact ⟨_, .string hquotes, (Moves.next hc).trans hmoves⟩
      · exact readSign_moves hc h

end Readers

/-- A token takes up the characters `i` to `j` of a text. -/
structure Occupies (text : List Char) (i j : Nat) (t : Token) : Prop where
  le : i ≤ j
  lt : j < text.length
  start : t.start = Position.past (text.take i)
  stop : t.stop = Position.past (text.take j)
  spelled : Spells ((text.drop i).take (j + 1 - i)) t.lexeme
  one_line : '\n' ∉ (text.drop i).take (j + 1 - i)

/-- Tokens that take up places in a text from character `n` on, one after the other and with
nothing but blanks and comments before each. They end before character `e`. -/
inductive Laid (text : List Char) : (n : Nat) → List Token → (e : Nat) → Prop
  | none {n : Nat} : Laid text n [] n
  | more {n i j e : Nat} {t : Token} {ts : List Token} (hle : n ≤ i)
    (hgap : IsTrivia ((text.drop n).take (i - n))) (ht : Occupies text i j t)
    (hts : Laid text (j + 1) ts e) : Laid text n (t :: ts) e

theorem Laid.length_le {text : List Char} {n e : Nat} {ts : List Token} (h : Laid text n ts e)
    (hn : n ≤ text.length) : n + ts.length ≤ e ∧ e ≤ text.length := by
  induction h with
  | none => exact ⟨Nat.le_refl _, hn⟩
  | more hle _ ht _ ih =>
    have hij := ht.le
    have hj := ht.lt
    obtain ⟨hlength, he⟩ := ih hj
    refine ⟨?_, he⟩
    rw [List.length_cons]
    omega

section Scans

variable {limits : Limits} {text : List Char} {n : Nat} {c c' : Cursor} {t : Token}

/-- What is read at a place takes up the characters from there on to the one that was passed
last. -/
theorem readLexeme_occupies {i : Nat} {l : Lexeme} (h : c.At text i) (hne : c.rest ≠ [])
    (hread : readLexeme limits c = (.ok l, c')) :
    l ≠ .endOfInput ∧ ∃ j, Occupies text i j ⟨l, c.here, c'.last⟩ ∧ c'.At text (j + 1) := by
  obtain ⟨cs, hspells, hmoves⟩ := readLexeme_moves hne hread
  obtain ⟨hkind, hprogress⟩ := readLexeme_progress limits hne (by rw [hread]; rfl)
  have hpos : 0 < cs.length := by
    rw [hmoves.rest, List.length_append] at hprogress
    omega
  have hat : c'.At text (i + (cs.length - 1) + 1) := by
    have hmoved := h.moves hmoves
    rwa [show i + cs.length = i + (cs.length - 1) + 1 by omega] at hmoved
  have hdrop : text.drop i = cs ++ c'.rest := by rw [← h.rest, hmoves.rest]
  have htake : (text.drop i).take (i + (cs.length - 1) + 1 - i) = cs := by
    rw [hdrop, show i + (cs.length - 1) + 1 - i = cs.length by omega, List.take_left]
  refine ⟨?_, i + (cs.length - 1), ⟨Nat.le_add_right _ _, ?_, h.here, ?_, ?_, ?_⟩, hat⟩
  · intro hend
    rw [hend] at hkind
    exact hkind rfl
  · have hlength := congrArg List.length hdrop
    rw [List.length_drop, List.length_append] at hlength
    omega
  · rw [hat.last (Nat.succ_pos _), Nat.add_sub_cancel]
  · rw [htake]
    exact hspells
  · rw [htake]
    exact hspells.one_line

/-- One token is scanned at its place, or the end of the text at the end. -/
theorem scan_places (h : c.At text n) (hscan : scan limits c = (.ok t, c')) :
    (t.lexeme = .endOfInput ∧ t.start = Position.past text ∧ t.stop = Position.past text ∧
        IsTrailing (text.drop n)) ∨
      t.lexeme ≠ .endOfInput ∧ ∃ i j, n ≤ i ∧ IsTrivia ((text.drop n).take (i - n)) ∧
        Occupies text i j t ∧ c'.At text (j + 1) := by
  obtain ⟨w, hw⟩ := skipGap_moves .blanks c.rest c.here c.last
  have hpass := skipGap_rest .blanks c.rest c.here c.last
  simp only [scan] at hscan
  generalize skipGap .blanks c.rest c.here c.last = c₀ at hw hpass hscan
  have hrest : c.rest = w ++ c₀.rest := hw.rest
  have hat : c₀.At text (n + w.length) := h.moves hw
  by_cases hnil : c₀.rest = []
  · have hread : readLexeme limits c₀ = (.ok .endOfInput, c₀) := by rw [readLexeme, hnil]
    rw [hread] at hscan
    simp only [Prod.mk.injEq, Except.ok.injEq] at hscan
    obtain ⟨rfl, -⟩ := hscan
    have hend : text.take (n + w.length) = text := by
      refine List.take_of_length_le (List.drop_eq_nil_iff.mp ?_)
      rw [← hat.rest, hnil]
    have hhere : c₀.here = Position.past text := by rw [hat.here, hend]
    refine .inl ⟨rfl, hhere, hhere, ?_⟩
    rw [← h.rest]
    exact trailing_of_pass (by rw [← hpass, hnil])
  · cases hread : readLexeme limits c₀ with
    | mk result c'' =>
      rw [hread] at hscan
      cases result with
      | error f => cases hscan
      | ok l =>
        obtain ⟨hl, j, hplace, hafter⟩ := readLexeme_occupies hat hnil hread
        have htoken : t = ⟨l, c₀.here, c''.last⟩ ∧ c' = c'' := by
          cases l with
          | endOfInput => exact absurd rfl hl
          | _ =>
            cases hscan
            exact ⟨rfl, rfl⟩
        obtain ⟨rfl, rfl⟩ := htoken
        obtain ⟨w', hw', htrivia⟩ := trivia_before (by rw [← hpass]; exact hnil)
        have hww' : w' = w := by
          rw [← hpass] at hw'
          exact List.append_cancel_right (hw'.symm.trans hrest)
        refine .inr ⟨hl, n + w.length, j, Nat.le_add_right _ _, ?_, hplace, hafter⟩
        rw [← h.rest, Nat.add_sub_cancel_left, hrest, List.take_left, ← hww']
        exact htrivia

/-- All tokens are scanned at their places. -/
theorem scanAll_laid (fuel : Nat) (h : c.At text n) (hfuel : c.rest.length < fuel) :
    ∃ e, Laid text n (scanAll limits fuel c).tokens e ∧
      ∀ t, (scanAll limits fuel c).ending = .ok t →
        t.start = Position.past text ∧ t.stop = Position.past text ∧ IsTrailing (text.drop e) := by
  induction fuel generalizing n c with
  | zero => exact absurd hfuel (Nat.not_lt_zero _)
  | succ fuel ih =>
    rw [scanAll]
    cases hscan : scan limits c with
    | mk result c' =>
      cases result with
      | error f => exact ⟨n, .none, fun _ he => by cases he⟩
      | ok t =>
        dsimp only
        obtain ⟨hend, hplace⟩ | ⟨hne, i, j, hle, hgap, hocc, hat⟩ := scan_places h hscan
        · rw [hend]
          exact ⟨n, .none, fun t' he => by cases he; exact hplace⟩
        · have hlt : c'.rest.length < fuel := by
            rw [hat.rest, List.length_drop]
            rw [h.rest, List.length_drop] at hfuel
            have hij := hocc.le
            have hj := hocc.lt
            omega
          obtain ⟨e, hlaid, hending⟩ := ih hat hlt
          split
          · next hend => exact absurd hend hne
          · exact ⟨e, .more hle hgap hocc hlaid, hending⟩

/-- More fuel than there are characters makes no difference. -/
theorem scanAll_fuel {fuel fuel' : Nat} (hfuel : c.rest.length < fuel)
    (hfuel' : c.rest.length < fuel') : scanAll limits fuel c = scanAll limits fuel' c := by
  induction fuel generalizing c fuel' with
  | zero => exact absurd hfuel (Nat.not_lt_zero _)
  | succ fuel ih =>
    obtain ⟨fuel', rfl⟩ := Nat.exists_eq_add_one_of_ne_zero (Nat.ne_zero_of_lt hfuel')
    rw [scanAll, scanAll]
    obtain ⟨-, t, c', hscan, ht⟩ | ⟨hne, ⟨-, f, c', hscan⟩ | ⟨t, c', hscan, -, hread⟩⟩ :=
      scan_cases limits c
    · rw [hscan]
      dsimp only
      rw [ht]
    · rw [hscan]
    · have hlt : c'.rest.length < c.rest.length :=
        Nat.lt_of_lt_of_le (readLexeme_progress limits hne hread).2 (length_pass_le _ _)
      rw [hscan]
      dsimp only
      rw [ih (c := c') (by omega) (by omega : c'.rest.length < fuel')]

end Scans

/-- Tokens stand where their positions say, with nothing but blanks and comments between them, and
the end of the input comes after the last character. Scanning comes to an end, with no more tokens
than there are characters. -/
theorem tokenize_laid (limits : Limits) (text : Bytes) :
    (∃ e, Laid text.chars 0 (tokenize limits text).tokens e ∧
      ∀ t, (tokenize limits text).ending = .ok t → t.lexeme = .endOfInput ∧
        t.start = Position.past text.chars ∧ t.stop = Position.past text.chars ∧
        IsTrailing (text.chars.drop e)) ∧
    (tokenize limits text).tokens.length ≤ text.chars.length ∧
    ∀ fuel, text.chars.length < fuel →
      scanAll limits fuel (.ofText text) = tokenize limits text := by
  have hstart : (Cursor.ofText text).At text.chars 0 := ⟨rfl, rfl, fun h => absurd h (Nat.lt_irrefl 0)⟩
  obtain ⟨e, hlaid, hending⟩ : ∃ e, Laid text.chars 0 (tokenize limits text).tokens e ∧ ∀ t,
      (tokenize limits text).ending = .ok t → t.start = Position.past text.chars ∧
        t.stop = Position.past text.chars ∧ IsTrailing (text.chars.drop e) :=
    scanAll_laid (text.chars.length + 1) hstart (Nat.lt_succ_self _)
  refine ⟨⟨e, hlaid, fun t ht => ⟨scanAll_ending ht, hending t ht⟩⟩, ?_, fun fuel hfuel => ?_⟩
  · obtain ⟨hlength, he⟩ := hlaid.length_le (Nat.zero_le _)
    rw [Nat.zero_add] at hlength
    exact Nat.le_trans hlength he
  · exact scanAll_fuel hfuel (Nat.lt_succ_self _)

end Token

end Kotoba
