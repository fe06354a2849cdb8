import Kotoba.Proofs.Token.Place

/-! Integer literals. The digits of a literal are read one by one onto a value, which always is what
the digits before say and never more than the greatest integer. The check before a digit refuses it
just when the value would grow past that. So a literal is read as the number it is, however many
zeros it begins with, or it is a fault that is reported where it begins. -/
namespace Kotoba.Token

section Check

variable {d : Char} {value : Nat}

/-- The check before a digit refuses those that would take the value past the greatest integer,
and no others. -/
theorem refused_iff (hd : d.isDigit) (value : Nat) :
    (maxInteger - digitValue d) / 10 < value ↔ maxInteger < value * 10 + digitValue d := by
  have hdigit := digitValue_le hd
  have hroom : 9 ≤ maxInteger := by decide
  omega

theorem toInt_ofNat_of_le {n : Nat} (h : n ≤ maxInteger) : (Int64.ofNat n).toInt = n :=
  Int64.toInt_ofNat_of_lt (Nat.lt_succ_of_le h)

/-- The check comes out the same in 64 bits. -/
theorem refused_word_iff (hd : d.isDigit) (hvalue : value ≤ maxInteger) :
    (Int64.maxValue - Int64.ofNat (digitValue d)) / 10 < Int64.ofNat value ↔
      (maxInteger - digitValue d) / 10 < value := by
  have hdigit : digitValue d ≤ maxInteger := Nat.le_trans (digitValue_le hd) (by decide)
  have hroom : maxInteger - digitValue d ≤ maxInteger := Nat.sub_le _ _
  have hlimit : (Int64.maxValue - Int64.ofNat (digitValue d)) / 10 =
      Int64.ofNat ((maxInteger - digitValue d) / 10) := by
    rw [Int64.ofNat_div (Nat.lt_succ_of_le hroom) (by decide), Int64.ofNat_sub _ _ hdigit]
    rfl
  rw [hlimit, Int64.lt_iff_toInt_lt, toInt_ofNat_of_le hvalue,
    toInt_ofNat_of_le (Nat.le_trans (Nat.div_le_self _ _) hroom), Int.ofNat_lt]

theorem toInt_accumulated (h : value * 10 + digitValue d ≤ maxInteger) :
    (Int64.ofNat value * 10 + Int64.ofNat (digitValue d)).toInt =
      (value * 10 + digitValue d : Nat) := by
  have hsum : Int64.ofNat value * 10 + Int64.ofNat (digitValue d) =
      Int64.ofNat (value * 10 + digitValue d) := by
    rw [Int64.ofNat_add, Int64.ofNat_mul]
    rfl
  rw [hsum, toInt_ofNat_of_le h]

/-- What the check before the digit `d` is for. It refuses the digit just when the value would go
past the greatest integer, and does so in 64 bits too, where a value that passes it does not wrap
around. -/
structure Guarded (value : Nat) (d : Char) : Prop where
  refuses : (maxInteger - digitValue d) / 10 < value ↔ maxInteger < value * 10 + digitValue d
  word : (Int64.maxValue - Int64.ofNat (digitValue d)) / 10 < Int64.ofNat value ↔
    (maxInteger - digitValue d) / 10 < value
  fits : ¬ (maxInteger - digitValue d) / 10 < value →
    (Int64.ofNat value * 10 + Int64.ofNat (digitValue d)).toInt =
      (value * 10 + digitValue d : Nat)

theorem guarded (hd : d.isDigit) (hvalue : value ≤ maxInteger) : Guarded value d where
  refuses := refused_iff hd value
  word := refused_word_iff hd hvalue
  fits := fun h => toInt_accumulated (Nat.not_lt.mp (mt (refused_iff hd value).mpr h))

end Check

section Runs

variable {cs after digits rest : List Char} {value count : Nat}

/-- The rounds in which `readInteger` reads a text: it has come to hold `value` after `count`
digits, and `after` is still to be read. Where a digit is refused, there is no further round. -/
inductive Rounds (cs : List Char) : (value count : Nat) → (after : List Char) → Prop
  | start : Rounds cs 0 0 cs
  | digit {value count : Nat} {d : Char} {after : List Char}
    (before : Rounds cs value count (d :: after)) (isDigit : d.isDigit)
    (fits : ¬ (maxInteger - digitValue d) / 10 < value) :
    Rounds cs (value * 10 + digitValue d) (count + 1) after

theorem ofDigitChars_concat (digits : List Char) (d : Char) :
    Nat.ofDigitChars 10 (digits ++ [d]) 0 = Nat.ofDigitChars 10 digits 0 * 10 + digitValue d := by
  rw [Nat.ofDigitChars_append, Nat.ofDigitChars_cons, Nat.ofDigitChars_nil, Nat.mul_comm]
  rfl

/-- From any of its rounds the reader goes on as it does from the start. -/
theorem Rounds.readInteger_eq (h : Rounds cs value count after) :
    readInteger 0 0 cs = readInteger value count after := by
  induction h with
  | start => rfl
  | digit _ isDigit fits ih => rw [ih, readInteger, if_pos isDigit, if_neg fits]

/-- In every round the value is what the digits say that were read, and it is an integer. -/
theorem Rounds.holds (h : Rounds cs value count after) :
    ∃ digits, cs = digits ++ after ∧ digits.length = count ∧ (∀ d ∈ digits, d.isDigit) ∧
      value = Nat.ofDigitChars 10 digits 0 ∧ value ≤ maxInteger := by
  induction h with
  | start => exact ⟨[], rfl, rfl, by simp, Nat.ofDigitChars_nil.symm, Nat.zero_le _⟩
  | @digit value count d after _ isDigit fits ih =>
    obtain ⟨digits, hcs, hlength, hdigits, hvalue, -⟩ := ih
    refine ⟨digits ++ [d], ?_, ?_, ?_, ?_, ?_⟩
    · rw [hcs, List.append_assoc, List.singleton_append]
    · rw [List.length_append, List.length_singleton, hlength]
    · rw [List.forall_mem_append, List.forall_mem_singleton]
      exact ⟨hdigits, isDigit⟩
    · rw [ofDigitChars_concat, hvalue]
    · exact Nat.not_lt.mp (mt (refused_iff isDigit value).mpr fits)

/-- From every round the reader comes to a last one, in which no digit follows or the one that
follows is refused. -/
theorem Rounds.last (h : Rounds cs value count after) :
    ∃ value count after, Rounds cs value count after ∧
      ((∀ d ∈ after.head?, d.isDigit = false) ∧ readInteger 0 0 cs = .ok (value, count) ∨
        ∃ d more, after = d :: more ∧ d.isDigit ∧ (maxInteger - digitValue d) / 10 < value ∧
          readInteger 0 0 cs = .error count) := by
  induction after generalizing value count with
  | nil => exact ⟨_, _, _, h, .inl ⟨by simp, by rw [h.readInteger_eq, readInteger]⟩⟩
  | cons d more ih =>
    by_cases hd : d.isDigit
    · by_cases hrefused : (maxInteger - digitValue d) / 10 < value
      · refine ⟨_, _, _, h, .inr ⟨d, more, rfl, hd, hrefused, ?_⟩⟩
        rw [h.readInteger_eq, readInteger, if_pos hd, if_pos hrefused]
      · exact ih (h.digit hd hrefused)
    · refine ⟨_, _, _, h, .inl ⟨by simpa using hd, ?_⟩⟩
      rw [h.readInteger_eq, readInteger, if_neg hd]

/-- The rounds of a run of digits take digits from it, and nothing of what comes after. -/
theorem Rounds.within (h : Rounds (digits ++ rest) value count after)
    (hrest : ∀ d ∈ rest.head?, d.isDigit = false) :
    ∃ read more, digits = read ++ more ∧ after = more ++ rest ∧ read.length = count ∧
      value = Nat.ofDigitChars 10 read 0 ∧ value ≤ maxInteger := by
  obtain ⟨read, hsplit, hlength, hread, hvalue, hle⟩ := h.holds
  obtain ⟨past, rfl, hpast⟩ | ⟨more, hdigits, hafter⟩ := List.append_eq_append_iff.mp hsplit
  · cases past with
    | nil =>
      rw [List.append_nil] at hlength hvalue
      exact ⟨digits, [], (List.append_nil _).symm, hpast.symm, hlength, hvalue, hle⟩
    | cons d past =>
      have hd : d.isDigit = false := hrest d (by rw [hpast]; rfl)
      rw [hread d (by simp)] at hd
      cases hd
  · exact ⟨read, more, hdigits, hafter, hlength, hvalue, hle⟩

/-- After `count` digits comes one that would take the value past the greatest integer. -/
def Refused (cs : List Char) (count : Nat) : Prop :=
  ∃ value d after, Rounds cs value count (d :: after) ∧ d.isDigit ∧
    maxInteger < value * 10 + digitValue d

/-- A run of digits is read as what it says if that is an integer, and one of its digits is refused
if not. -/
theorem readInteger_digits (hdigits : ∀ d ∈ digits, d.isDigit)
    (hrest : ∀ d ∈ rest.head?, d.isDigit = false) :
    Nat.ofDigitChars 10 digits 0 ≤ maxInteger ∧
        Rounds (digits ++ rest) (Nat.ofDigitChars 10 digits 0) digits.length rest ∧
        readInteger 0 0 (digits ++ rest) = .ok (Nat.ofDigitChars 10 digits 0, digits.length) ∨
      maxInteger < Nat.ofDigitChars 10 digits 0 ∧
        ∃ count, Refused (digits ++ rest) count ∧
          readInteger 0 0 (digits ++ rest) = .error count := by
  have hstart : Rounds (digits ++ rest) 0 0 (digits ++ rest) := .start
  obtain ⟨value, count, after, hround, hlast⟩ := hstart.last
  obtain ⟨read, more, rfl, rfl, rfl, rfl, hle⟩ := hround.within hrest
  obtain ⟨hstop, hok⟩ | ⟨d, after, hnext, hd, hrefused, herror⟩ := hlast
  -- no digit follows in the last round, so all of them have been read
  · cases more with
    | nil =>
      rw [List.append_nil, List.nil_append] at hround
      rw [List.append_nil] at hok ⊢
      exact .inl ⟨hle, hround, hok⟩
    | cons d more =>
      have hd : d.isDigit = false := hstop d rfl
      rw [hdigits d (by simp)] at hd
      cases hd
  -- a digit is refused, and those after it make the number no smaller
  · have hpast := (refused_iff hd _).mp hrefused
    cases more with
    | nil =>
      rw [hrest d (by rw [← List.nil_append rest, hnext]; rfl)] at hd
      cases hd
    | cons d' more =>
      obtain ⟨rfl, rfl⟩ := List.cons.inj hnext
      refine .inr ⟨?_, _, ⟨_, _, _, hround, hd, hpast⟩, herror⟩
      calc maxInteger
        _ < Nat.ofDigitChars 10 read 0 * 10 + digitValue d' := hpast
        _ = Nat.ofDigitChars 10 (read ++ [d']) 0 := (ofDigitChars_concat _ _).symm
        _ ≤ Nat.ofDigitChars 10 more (Nat.ofDigitChars 10 (read ++ [d']) 0) :=
          le_ofDigitChars _ _
        _ = Nat.ofDigitChars 10 (read ++ d' :: more) 0 := by
          rw [← Nat.ofDigitChars_append, List.append_assoc, List.singleton_append]

end Runs

section Literals

variable {limits : Limits} {before w digits rest : List Char} {c : Cursor}

/-- Blanks and comments are passed over up to the first digit. -/
theorem skipGap_digits (hat : c.At (before ++ (w ++ (digits ++ rest))) before.length)
    (hw : IsTrivia w) (hne : digits ≠ []) (hdigits : ∀ d ∈ digits, d.isDigit) :
    (skipGap .blanks c.rest c.here c.last).rest = digits ++ rest ∧
      (skipGap .blanks c.rest c.here c.last).here = Position.past (before ++ w) := by
  obtain ⟨d, ds, rfl⟩ := List.exists_cons_of_ne_nil hne
  obtain ⟨hblank, hhash⟩ := not_gap_of_isLetter (.inr (hdigits d List.mem_cons_self))
  have hgap : Gap.blanks.after d = none := by simp [Gap.after, hblank, hhash]
  have hc : c.rest = w ++ (d :: ds ++ rest) := by rw [hat.rest, List.drop_left]
  have hskip : (skipGap .blanks c.rest c.here c.last).rest = d :: ds ++ rest := by
    rw [skipGap_rest, hc, pass_trivia hw]
    simp [pass, hgap]
  obtain ⟨w', hmoves⟩ := skipGap_moves .blanks c.rest c.here c.last
  have hpassed : w' = w := by
    have hsplit := hmoves.rest
    rw [hskip, hc] at hsplit
    exact (List.append_cancel_right hsplit).symm
  refine ⟨hskip, ?_⟩
  rw [(hat.moves hmoves).here, hpassed, List.take_length_add_append, List.take_left]

theorem readLexeme_digits (hne : digits ≠ []) (hdigits : ∀ d ∈ digits, d.isDigit)
    (hc : c.rest = digits ++ rest) : readLexeme limits c = readNumber c := by
  obtain ⟨d, ds, rfl⟩ := List.exists_cons_of_ne_nil hne
  have hd : d.isDigit := hdigits d List.mem_cons_self
  rw [List.cons_append] at hc
  simp only [readLexeme, hc]
  rw [if_neg (by simp [isLetter_of_isDigit hd]), if_pos hd]

/-- Integer literals are read exactly or refused. In every round of reading a run of digits the
value is what the digits so far say and no more than the greatest integer, and the check before the
next digit refuses it just when the value would become greater. In the end the value is what all the
digits say, if that is an integer. Otherwise the literal is a fault, which is reported at its first
digit. -/
theorem scan_integer (limits : Limits)
    (hat : c.At (before ++ (w ++ (digits ++ rest))) before.length) (hw : IsTrivia w)
    (hne : digits ≠ []) (hdigits : ∀ d ∈ digits, d.isDigit)
    (hrest : ∀ d ∈ rest.head?, d.isDigit = false) :
    (∀ value count after, Rounds (digits ++ rest) value count after →
      readInteger 0 0 (digits ++ rest) = readInteger value count after ∧
      (∃ read more, digits = read ++ more ∧ after = more ++ rest ∧ read.length = count ∧
        value = Nat.ofDigitChars 10 read 0) ∧
      value ≤ maxInteger ∧ ∀ d ∈ after.head?, d.isDigit → Guarded value d) ∧
    (Nat.ofDigitChars 10 digits 0 ≤ maxInteger →
      Rounds (digits ++ rest) (Nat.ofDigitChars 10 digits 0) digits.length rest ∧
      readInteger 0 0 (digits ++ rest) = .ok (Nat.ofDigitChars 10 digits 0, digits.length) ∧
      (rest.head? ≠ some '.' → ∃ t c', scan limits c = (.ok t, c') ∧
        t.lexeme = .integer (Nat.ofDigitChars 10 digits 0) ∧
        t.start = Position.past (before ++ w) ∧ c'.rest = rest)) ∧
    (maxInteger < Nat.ofDigitChars 10 digits 0 →
      (∃ count, Refused (digits ++ rest) count ∧
        readInteger 0 0 (digits ++ rest) = .error count) ∧
      ∃ f c', scan limits c = (.error f, c') ∧ f.diagnostic.kind = some .integerOverflow ∧
        f.diagnostic.span = .point (Position.past (before ++ w))) := by
  obtain ⟨hskip, hhere⟩ := skipGap_digits hat hw hne hdigits
  have hread : readLexeme limits _ = readNumber _ := readLexeme_digits hne hdigits hskip
  have hint := readInteger_digits hdigits hrest
  refine ⟨fun value count after hround => ?_, fun hvalue => ?_, fun hvalue => ?_⟩
  · obtain ⟨read, more, hsplit, hafter, hlength, hvalue, hle⟩ := hround.within hrest
    exact ⟨hround.readInteger_eq, ⟨read, more, hsplit, hafter, hlength, hvalue⟩, hle,
      fun d _ hd => guarded hd hle⟩
  · obtain ⟨-, hround, hok⟩ := hint.resolve_right fun h => Nat.not_lt.mpr hvalue h.1
    refine ⟨hround, hok, fun hpoint => ?_⟩
    rw [← hskip] at hok
    rw [scan, hread, readNumber_of_ok hok, skip_rest, hskip, List.drop_left, if_neg hpoint]
    refine ⟨_, _, rfl, rfl, hhere, ?_⟩
    rw [skip_rest, hskip, List.drop_left]
  · obtain ⟨-, count, hrefused, herror⟩ := hint.resolve_left fun h => Nat.not_lt.mpr h.1 hvalue
    refine ⟨⟨count, hrefused, herror⟩, ?_⟩
    rw [← hskip] at herror
    rw [scan, hread, readNumber, herror]
    exact ⟨_, _, rfl, rfl, congrArg Span.point hhere⟩

/-- The greatest integer and the number after it, both with zeros in front. -/
theorem scan_integer_greatest :
    (∃ t c', scan {} { rest := " 009223372036854775807;".toList } = (.ok t, c') ∧
      t.lexeme = .integer 9223372036854775807 ∧ t.start = ⟨1, 2⟩ ∧ c'.rest = [';']) ∧
    ∃ f c', scan {} { rest := " 009223372036854775808;".toList } = (.error f, c') ∧
      f.diagnostic.kind = some .integerOverflow ∧ f.diagnostic.span = .point ⟨1, 2⟩ := by
  have hat (digits : List Char) : Cursor.At ([] ++ ([' '] ++ (digits ++ [';'])))
      ([] : List Char).length { rest := ' ' :: (digits ++ [';']) } :=
    ⟨rfl, rfl, fun h => absurd h (Nat.lt_irrefl 0)⟩
  have hw : IsTrivia [' '] := (IsTrivium.blank rfl).trivia
  have hrest : ∀ d ∈ [';'].head?, d.isDigit = false := by simp
  constructor
  · have h := scan_integer {} (hat "009223372036854775807".toList) hw (by decide)
      (List.all_eq_true.mp (by decide)) hrest
    exact (h.2.1 (by decide)).2.2 (by decide)
  · have h := scan_integer {} (hat "009223372036854775808".toList) hw (by decide)
      (List.all_eq_true.mp (by decide)) hrest
    exact (h.2.2 (by decide)).2

end Literals

end Kotoba.Token
