import Kotoba.Proofs.Text.Utf8
import Kotoba.Proofs.Token.Trivia

/-! Writing tokens down. What is written with blanks or comments between the tokens is scanned as
the same tokens. -/
namespace Kotoba.Token

/-- A character in a string literal, with the four escapes. -/
def escaped (c : Char) : List Char :=
  if c = '\n' then ['\\', 'n']
  else if c = '\t' then ['\\', 't']
  else if c = '"' then ['\\', '"']
  else if c = '\\' then ['\\', '\\']
  else [c]

/-- A word of letters that is not too long. -/
structure IsWord (limits : Limits) (word : List Char) : Prop where
  ne_nil : word ≠ []
  letters : ∀ c ∈ word, Text.isLetter c
  short : word.length ≤ limits.identifier

instance (limits : Limits) (word : List Char) : Decidable (IsWord limits word) :=
  decidable_of_iff (word ≠ [] ∧ word.all Text.isLetter ∧ word.length ≤ limits.identifier)
    ⟨fun h => ⟨h.1, List.all_eq_true.mp h.2.1, h.2.2⟩,
      fun h => ⟨h.ne_nil, List.all_eq_true.mpr h.letters, h.short⟩⟩

namespace Lexeme

/-- What a token says, however its mark is spelled. -/
def said : Lexeme → Lexeme
  | mark m _ => mark m ""
  | lexeme => lexeme

/-- What a mark says. -/
abbrev of (m : Mark) : Lexeme := mark m ""

@[simp] theorem said_mark (m : Mark) (spelling : String) : (mark m spelling).said = of m := rfl

@[simp] theorem kind_said (l : Lexeme) : l.said.kind = l.kind := by
  cases l <;> rfl

@[simp] theorem said_said (l : Lexeme) : l.said.said = l.said := by
  cases l <;> rfl

theorem exists_of_kind_string {l : Lexeme} (h : l.kind = .string) : ∃ text, l = .string text := by
  cases l <;> cases h
  exact ⟨_, rfl⟩

/-- What a token says when it is scanned: a mark that is a word keeps the word. -/
def full : Lexeme → Lexeme
  | mark m spelling => if spelling = "" ∧ m ∈ Mark.words then mark m m.name else mark m spelling
  | lexeme => lexeme

@[simp] theorem said_full (l : Lexeme) : l.full.said = l.said := by
  cases l with
  | mark m spelling =>
    simp only [full]
    split <;> rfl
  | _ => rfl

/-- How a token is written. A mark without a spelling is written by its name. -/
def spelled : Lexeme → List Char
  | identifier name => name.toList
  | integer value => Nat.toDigits 10 value
  | string text => '"' :: (text.toList.flatMap escaped ++ ['"'])
  | mark m spelling => if spelling = "" then m.name.toList else spelling.toList
  | endOfInput | float _ => []

/-- Whether a token can be written within the limits. Floats are left out. -/
def Writable (limits : Limits) : Lexeme → Prop
  | identifier name => IsWord limits name.toList ∧ Mark.ofWord? name = none
  | integer value => value ≤ maxInteger
  | string text => (∀ c ∈ text.toList, Text.isPrintable c ∨ c = '\n' ∨ c = '\t') ∧
      text.toList.length ≤ limits.string
  | mark m spelling =>
      if spelling = "" then m ∈ Mark.words → m.name.toList.length ≤ limits.identifier
      else IsWord limits spelling.toList ∧ Mark.ofWord? spelling = some m
  | endOfInput | float _ => False

instance (limits : Limits) : (l : Lexeme) → Decidable (l.Writable limits)
  | identifier name => inferInstanceAs (Decidable (IsWord limits name.toList ∧ _))
  | integer value => inferInstanceAs (Decidable (value ≤ maxInteger))
  | string text =>
    have : Decidable (∀ c ∈ text.toList, Text.isPrintable c ∨ c = '\n' ∨ c = '\t') :=
      List.decidableBAll _ _
    inferInstanceAs (Decidable ((∀ c ∈ text.toList, Text.isPrintable c ∨ c = '\n' ∨ c = '\t') ∧
      text.toList.length ≤ limits.string))
  | mark m spelling => inferInstanceAs (Decidable (if spelling = "" then
      m ∈ Mark.words → m.name.toList.length ≤ limits.identifier
      else IsWord limits spelling.toList ∧ Mark.ofWord? spelling = some m))
  | endOfInput | float _ => inferInstanceAs (Decidable False)

theorem writable_of {limits : Limits} {m : Mark} : (of m).Writable limits ↔
    (m ∈ Mark.words → m.name.toList.length ≤ limits.identifier) := by
  simp [Writable]

/-- Whether a token may come out of a scan within the limits: a sign, a reserved word, a name, an
integer or a string. Words of both sorts have the limit on names. Floats are left out. -/
def Valid (limits : Limits) : Lexeme → Prop
  | mark m spelling =>
      if spelling = "" then m ∈ Mark.signs
      else Mark.ofWord? spelling = some m ∧ spelling.toList.length ≤ limits.identifier
  | identifier name => IsWord limits name.toList ∧ Mark.ofWord? name = none
  | integer value => value ≤ maxInteger
  | string text => (∀ c ∈ text.toList, Text.isPrintable c ∨ c = '\n' ∨ c = '\t') ∧
      text.toList.length ≤ limits.string
  | endOfInput | float _ => False

end Lexeme

/-- Tokens with spaces between them. -/
def written : List Lexeme → List Char
  | [] => []
  | [l] => l.spelled
  | l :: rest => l.spelled ++ ' ' :: written rest

/-- Tokens that are written one after the other, with blanks or comments between neighbours. -/
inductive Spread : List Lexeme → List Char → Prop
  | none : Spread [] []
  | one (l : Lexeme) : Spread [l] l.spelled
  | more {l l' : Lexeme} {ls : List Lexeme} {w cs : List Char} (hw : IsTrivia w) (hne : w ≠ [])
    (h : Spread (l' :: ls) cs) : Spread (l :: l' :: ls) (l.spelled ++ (w ++ cs))

theorem spread_written (ls : List Lexeme) : Spread ls (written ls) := by
  induction ls with
  | nil => exact .none
  | cons l ls ih =>
    cases ls with
    | nil => exact .one l
    | cons l' ls => exact .more (w := [' ']) (IsTrivium.blank rfl).trivia (by simp) ih

section Beginnings

/-- The blank characters. -/
private def blanks : List Char :=
  ['\t', '\n', '\x0b', '\x0c', '\r', ' ', '\x85', '\u00a0', '\u1680', '\u2000', '\u2001', '\u2002',
    '\u2003', '\u2004', '\u2005', '\u2006', '\u2007', '\u2008', '\u2009', '\u200a', '\u2028',
    '\u2029', '\u202f', '\u205f', '\u3000']

/-- The characters with which blanks and comments begin. -/
private def partings : List Char := '#' :: blanks

private theorem mem_blanks {c : Char} (h : Text.isBlank c) : c ∈ blanks := by
  have hcodes : c.toNat ∈ blanks.map Char.toNat := by
    rw [show blanks.map Char.toNat = [9, 10, 11, 12, 13, 32, 133, 160, 5760, 8192, 8193, 8194, 8195,
      8196, 8197, 8198, 8199, 8200, 8201, 8202, 8232, 8233, 8239, 8287, 12288] from rfl]
    simp only [Text.isBlank, Bool.or_eq_true, Bool.and_eq_true, decide_eq_true_eq, beq_iff_eq] at h
    simp only [List.mem_cons, List.not_mem_nil, or_false]
    omega
  obtain ⟨d, hd, hdc⟩ := List.mem_map.mp hcodes
  rwa [← Char.toNat_inj.mp hdc]

private theorem mem_partings {c : Char} (h : Text.isBlank c ∨ c = '#') : c ∈ partings := by
  obtain h | rfl := h
  · exact List.mem_cons_of_mem _ (mem_blanks h)
  · exact List.mem_cons_self

/-- Neither blanks nor comments begin with a letter, a digit or a point. -/
theorem not_letter_of_parting {c : Char} (h : Text.isBlank c ∨ c = '#') :
    Text.isLetter c = false ∧ c.isDigit = false ∧ c ≠ '.' := by
  have hall : partings.all fun d => !Text.isLetter d && !d.isDigit && d != '.' := by decide +kernel
  have hc := List.all_eq_true.mp hall c (mem_partings h)
  simpa [and_assoc] using hc

theorem not_gap_of_isLetter {c : Char} (h : Text.isLetter c ∨ c.isDigit) :
    Text.isBlank c = false ∧ c ≠ '#' := by
  have hno : ¬ (Text.isBlank c ∨ c = '#') := by
    intro hgap
    obtain ⟨hletter, hdigit, -⟩ := not_letter_of_parting hgap
    rw [hletter, hdigit] at h
    obtain ⟨⟨⟩⟩ | ⟨⟨⟩⟩ := h
  rw [not_or] at hno
  exact ⟨Bool.eq_false_iff.mpr hno.1, hno.2⟩

end Beginnings

/-- What comes after a token: nothing, a blank or a comment. -/
def Parted (w : List Char) : Prop := ∀ ch ∈ w.head?, Text.isBlank ch ∨ ch = '#'

theorem Parted.cases {w : List Char} (h : Parted w) :
    w = [] ∨ ∃ ch u, w = ch :: u ∧ (Text.isBlank ch ∨ ch = '#') := by
  cases w with
  | nil => exact .inl rfl
  | cons ch u => exact .inr ⟨ch, u, rfl, h ch rfl⟩

theorem parted_trivia {w : List Char} (hw : IsTrivia w) (hne : w ≠ []) (rest : List Char) :
    Parted (w ++ rest) := by
  intro ch hch
  rw [List.head?_append, Option.or_of_isSome (List.isSome_head?.mpr hne)] at hch
  exact hw.head ch hch

section Readers

variable {limits : Limits} {c : Cursor} {rest : List Char} (hrest : Parted rest)
include hrest

theorem takeWhile_isLetter {cs : List Char} (hcs : ∀ ch ∈ cs, Text.isLetter ch) :
    (cs ++ rest).takeWhile Text.isLetter = cs := by
  rw [List.takeWhile_append_of_pos hcs]
  obtain rfl | ⟨ch, u, rfl, hch⟩ := hrest.cases
  · simp
  · simp [(not_letter_of_parting hch).1]

theorem readWord_spelled {word : List Char} (hword : IsWord limits word)
    (hc : c.rest = word ++ rest) :
    ∃ l c', readWord limits c = (.ok l, c') ∧ c'.rest = rest ∧
      (∀ m, Mark.ofWord? (String.ofList word) = some m → l = .mark m (String.ofList word)) ∧
      (Mark.ofWord? (String.ofList word) = none → l = .identifier (String.ofList word)) := by
  have hletters : c.rest.takeWhile Text.isLetter = word := by
    rw [hc]
    exact takeWhile_isLetter hrest hword.letters
  unfold readWord
  rw [hletters]
  dsimp only
  rw [if_neg (Nat.not_lt.mpr hword.short)]
  refine ⟨_, _, rfl, by rw [skip_rest, hc, List.drop_left], fun m hm => ?_, fun hnone => ?_⟩
  · rw [hm]
  · rw [hnone]

omit hrest in
theorem le_ofDigitChars (digits : List Char) (value : Nat) :
    value ≤ Nat.ofDigitChars 10 digits value := by
  induction digits generalizing value with
  | nil => exact Nat.le_of_eq Nat.ofDigitChars_nil.symm
  | cons d digits ih =>
    rw [Nat.ofDigitChars_cons]
    have h := ih (10 * value + (d.toNat - '0'.toNat))
    omega

theorem readInteger_spelled {digits : List Char} (hdigits : ∀ ch ∈ digits, ch.isDigit)
    {value count : Nat} (hvalue : Nat.ofDigitChars 10 digits value ≤ maxInteger) :
    readInteger value count (digits ++ rest) =
      .ok (Nat.ofDigitChars 10 digits value, count + digits.length) := by
  induction digits generalizing value count with
  | nil =>
    rw [List.nil_append, Nat.ofDigitChars_nil]
    obtain rfl | ⟨ch, u, rfl, hch⟩ := hrest.cases
    · rfl
    · simp [readInteger, (not_letter_of_parting hch).2.1]
  | cons d digits ih =>
    have hd : d.isDigit := hdigits d List.mem_cons_self
    rw [Nat.ofDigitChars_cons] at hvalue ⊢
    have hle : 10 * value + (d.toNat - '0'.toNat) ≤ maxInteger :=
      Nat.le_trans (le_ofDigitChars _ _) hvalue
    have hvalue' : value * 10 + digitValue d = 10 * value + (d.toNat - '0'.toNat) := by
      rw [digitValue, Nat.mul_comm]
      rfl
    rw [List.cons_append, readInteger, if_pos hd, if_neg, hvalue',
      ih (fun ch hch => hdigits ch (List.mem_cons_of_mem _ hch)) hvalue]
    · rw [List.length_cons, Nat.add_assoc, Nat.add_comm 1]
    · rw [digitValue] at hvalue' ⊢
      omega

theorem readNumber_spelled {value : Nat} (hvalue : value ≤ maxInteger)
    (hc : c.rest = Nat.toDigits 10 value ++ rest) :
    ∃ c', readNumber c = (.ok (.integer value), c') ∧ c'.rest = rest := by
  have hdigits : ∀ ch ∈ Nat.toDigits 10 value, ch.isDigit := fun ch hch =>
    Nat.isDigit_of_mem_toDigits (by decide) (by decide) hch
  have hread : readInteger 0 0 c.rest = .ok (value, (Nat.toDigits 10 value).length) := by
    rw [hc, readInteger_spelled hrest hdigits (by rwa [Nat.ofDigitChars_ten_toDigits]),
      Nat.ofDigitChars_ten_toDigits, Nat.zero_add]
  have hskip : (c.skip (Nat.toDigits 10 value).length).rest = rest := by
    rw [skip_rest, hc, List.drop_left]
  refine ⟨_, ?_, hskip⟩
  rw [readNumber_of_ok hread, hskip, if_neg]
  intro hdot
  exact (not_letter_of_parting (hrest _ hdot)).2.2 rfl

omit hrest in
theorem readString_spelled {limit length : Nat} {cs : List Char} (start : Position)
    (text : List Char) (here last : Position)
    (hcs : ∀ ch ∈ cs, Text.isPrintable ch ∨ ch = '\n' ∨ ch = '\t')
    (hlength : length + cs.length ≤ limit) :
    ∃ c', readString limit start length text (cs.flatMap escaped ++ '"' :: rest) here last =
      (.ok (.string (String.ofList (text.reverse ++ cs))), c') ∧ c'.rest = rest := by
  induction cs generalizing length text here last with
  | nil =>
    rw [List.flatMap_nil, List.nil_append, readString_cons, if_pos rfl, List.append_nil]
    exact ⟨_, rfl, rfl⟩
  | cons ch cs ih =>
    have hmore (text : List Char) (here last : Position) :
        ∃ c', readString limit start (length + 1) text (cs.flatMap escaped ++ '"' :: rest) here
          last = (.ok (.string (String.ofList (text.reverse ++ cs))), c') ∧ c'.rest = rest :=
      ih text here last (fun c hc => hcs c (List.mem_cons_of_mem _ hc))
        (by rw [List.length_cons] at hlength; omega)
    have hlimit : ¬ limit < length + 1 := by
      rw [List.length_cons] at hlength
      omega
    have htext : (ch :: text).reverse ++ cs = text.reverse ++ ch :: cs := by simp
    have hescape (code : Char) (hcode : unescape? code = some ch)
        (hch : escaped ch = ['\\', code]) :
        ∃ c', readString limit start length text ((ch :: cs).flatMap escaped ++ '"' :: rest) here
            last = (.ok (.string (String.ofList (text.reverse ++ ch :: cs))), c') ∧
          c'.rest = rest := by
      rw [List.flatMap_cons, hch, List.append_assoc, List.cons_append, List.cons_append,
        List.nil_append, readString_cons, if_neg (by decide), if_neg (by decide), if_neg hlimit,
        if_pos rfl]
      dsimp only
      rw [hcode, ← htext]
      exact hmore (ch :: text) _ _
    by_cases hn : ch = '\n'
    · subst hn
      exact hescape 'n' rfl rfl
    by_cases ht : ch = '\t'
    · subst ht
      exact hescape 't' rfl rfl
    by_cases hq : ch = '"'
    · subst hq
      exact hescape '"' rfl rfl
    by_cases hs : ch = '\\'
    · subst hs
      exact hescape '\\' rfl rfl
    have hprint : Text.isPrintable ch := by
      obtain h | h | h := hcs ch List.mem_cons_self
      · exact h
      · exact absurd h hn
      · exact absurd h ht
    rw [List.flatMap_cons, escaped, if_neg hn, if_neg ht, if_neg hq, if_neg hs, List.append_assoc,
      List.cons_append, List.nil_append, readString_cons, if_neg hq, if_neg (by simp [hprint]),
      if_neg hlimit, if_neg hs, ← htext]
    exact hmore (ch :: text) _ _

end Readers

section Lexemes

variable {limits : Limits} {l : Lexeme} {rest : List Char}

theorem isLetter_of_mem_words {m : Mark} (hm : m ∈ Mark.words) :
    m.name.toList ≠ [] ∧ (∀ c ∈ m.name.toList, Text.isLetter c) ∧ Mark.ofWord? m.name = some m := by
  have hall : ∀ m ∈ Mark.words, m.name.toList ≠ [] ∧ m.name.toList.all Text.isLetter ∧
      Mark.ofWord? m.name = some m := by decide +kernel
  obtain ⟨hne, hletters, hword⟩ := hall m hm
  exact ⟨hne, List.all_eq_true.mp hletters, hword⟩

theorem mem_signs_of_not_mem_words {m : Mark} (hm : m ∉ Mark.words) : m ∈ Mark.signs := by
  revert hm
  cases m <;> decide

/-- A word is read as what it says. -/
theorem readLexeme_word {word : List Char} (hword : IsWord limits word) (hrest : Parted rest)
    {c : Cursor} (hc : c.rest = word ++ rest) :
    ∃ l c', readLexeme limits c = (.ok l, c') ∧ c'.rest = rest ∧
      (∀ m, Mark.ofWord? (String.ofList word) = some m → l = .mark m (String.ofList word)) ∧
      (Mark.ofWord? (String.ofList word) = none → l = .identifier (String.ofList word)) := by
  obtain ⟨ch, cs, rfl⟩ := List.exists_cons_of_ne_nil hword.ne_nil
  have hletter := hword.letters ch List.mem_cons_self
  obtain ⟨l, c', hread, h⟩ := readWord_spelled hrest hword hc
  refine ⟨l, c', ?_, h⟩
  simp only [readLexeme, hc, List.cons_append]
  rw [if_pos hletter, hread]

/-- Whether a character begins a sign, and nothing else. -/
private def isSymbol (c : Char) : Bool :=
  !Text.isLetter c && !c.isDigit && c ≠ '"' && !Text.isBlank c && c ≠ '#'

/-- Whether characters are those of a sign: one, which is not taken for the first of two before a
blank, a comment or the end, or two. -/
private def spells (m : Mark) : List Char → Bool
  | [a] => isSymbol a && Mark.ofChars? a none = some (m, false) &&
      partings.all fun d => Mark.ofChars? a (some d) = some (m, false)
  | [a, b] => isSymbol a && Mark.ofChars? a (some b) = some (m, true)
  | _ => false

private theorem spells_name {m : Mark} (hm : m ∈ Mark.signs) : spells m m.name.toList := by
  have hall : ∀ m ∈ Mark.signs, spells m m.name.toList := by decide +kernel
  exact hall m hm

private theorem readLexeme_symbol {a : Char} {cs : List Char} (ha : isSymbol a) {c : Cursor}
    (hc : c.rest = a :: cs) : readLexeme limits c = readSign a c := by
  simp only [isSymbol, Bool.and_eq_true, Bool.not_eq_true', decide_eq_true_eq] at ha
  obtain ⟨⟨⟨⟨hletter, hdigit⟩, hquote⟩, -⟩, -⟩ := ha
  simp only [readLexeme, hc]
  rw [if_neg (by simp [hletter]), if_neg (by simp [hdigit]), if_neg hquote]

theorem readLexeme_sign {m : Mark} (hm : m ∈ Mark.signs) (hrest : Parted rest) {c : Cursor}
    (hc : c.rest = m.name.toList ++ rest) :
    ∃ c', readLexeme limits c = (.ok (.mark m ""), c') ∧ c'.rest = rest := by
  have hspells := spells_name hm
  rcases hname : m.name.toList with _ | ⟨a, _ | ⟨b, _ | ⟨d, ds⟩⟩⟩ <;> rw [hname] at hspells hc
  · cases hspells
  · simp only [spells, Bool.and_eq_true, decide_eq_true_eq, List.all_eq_true] at hspells
    obtain ⟨⟨ha, hnone⟩, hparted⟩ := hspells
    have hnext : c.next.rest = rest := by rw [next_rest, hc]; rfl
    have hmark : Mark.ofChars? a rest.head? = some (m, false) := by
      obtain rfl | ⟨ch, u, rfl, hch⟩ := hrest.cases
      · exact hnone
      · exact hparted ch (mem_partings hch)
    refine ⟨c.next, ?_, hnext⟩
    rw [readLexeme_symbol ha hc, readSign, hnext, hmark]
  · simp only [spells, Bool.and_eq_true, decide_eq_true_eq] at hspells
    have hnext : c.next.rest = b :: rest := by rw [next_rest, hc]; rfl
    refine ⟨c.next.next, ?_, by rw [next_rest, hnext]; rfl⟩
    rw [readLexeme_symbol hspells.1 hc, readSign, hnext, List.head?_cons, hspells.2]
  · cases hspells

theorem isLetter_of_isDigit {d : Char} (h : d.isDigit) : Text.isLetter d = false := by
  have hcode : d.toNat ∈ "0123456789".toList.map Char.toNat := by
    rw [show "0123456789".toList.map Char.toNat = [48, 49, 50, 51, 52, 53, 54, 55, 56, 57] from rfl]
    simp only [Char.isDigit, Bool.and_eq_true, decide_eq_true_eq, ge_iff_le,
      UInt32.le_iff_toNat_le] at h
    have hfirst : 48 ≤ d.toNat := h.1
    have hlast : d.toNat ≤ 57 := h.2
    simp only [List.mem_cons, List.not_mem_nil, or_false]
    omega
  have hdigits : "0123456789".toList.all fun c => !Text.isLetter c := by decide
  obtain ⟨c, hc, hcd⟩ := List.mem_map.mp hcode
  rw [← Char.toNat_inj.mp hcd]
  simpa using List.all_eq_true.mp hdigits c hc

/-- What is written is read again. -/
theorem readLexeme_spelled (hl : l.Writable limits) (hrest : Parted rest) {c : Cursor}
    (hc : c.rest = l.spelled ++ rest) :
    ∃ c', readLexeme limits c = (.ok l.full, c') ∧ c'.rest = rest := by
  cases l with
  | endOfInput | float => cases hl
  | identifier name =>
    obtain ⟨hword, hname⟩ := hl
    obtain ⟨l', c', hread, hc', -, hident⟩ := readLexeme_word hword hrest hc
    rw [String.ofList_toList] at hident
    rw [hident hname] at hread
    exact ⟨c', hread, hc'⟩
  | integer value =>
    obtain ⟨c', hread, hc'⟩ := readNumber_spelled hrest hl hc
    refine ⟨c', ?_, hc'⟩
    obtain ⟨d, ds, hd⟩ := List.exists_cons_of_ne_nil (Nat.toDigits_ne_nil (n := value) (b := 10))
    have hdigit : d.isDigit := Nat.isDigit_of_mem_toDigits (b := 10) (n := value) (by decide)
      (by decide) (by rw [hd]; exact List.mem_cons_self)
    rw [Lexeme.spelled, hd, List.cons_append] at hc
    simp only [readLexeme, hc]
    rw [if_neg (by simp [isLetter_of_isDigit hdigit]), if_pos hdigit, hread]
    rfl
  | string text =>
    obtain ⟨hprint, hshort⟩ := hl
    rw [Lexeme.spelled, List.cons_append, List.append_assoc] at hc
    have hnext : c.next.rest = text.toList.flatMap escaped ++ '"' :: rest := by
      rw [next_rest, hc]
      rfl
    obtain ⟨c', hread, hc'⟩ := readString_spelled c.here [] c.next.here c.next.last hprint
      (Nat.le_trans (Nat.le_of_eq (Nat.zero_add _)) hshort)
    refine ⟨c', ?_, hc'⟩
    simp only [readLexeme, hc]
    rw [if_neg (by decide), if_neg (by decide), if_pos trivial, hnext, hread, List.reverse_nil,
      List.nil_append, String.ofList_toList]
    rfl
  | mark m spelling =>
    rw [Lexeme.spelled] at hc
    rw [Lexeme.Writable] at hl
    by_cases hspelling : spelling = ""
    · rw [if_pos hspelling] at hl hc
      by_cases hm : m ∈ Mark.words
      · obtain ⟨hne, hletters, hword⟩ := isLetter_of_mem_words hm
        obtain ⟨l', c', hread, hc', hmark, -⟩ :=
          readLexeme_word ⟨hne, hletters, hl hm⟩ hrest hc
        rw [String.ofList_toList] at hmark
        rw [hmark m hword] at hread
        exact ⟨c', by rw [hread, Lexeme.full, if_pos ⟨hspelling, hm⟩], hc'⟩
      · obtain ⟨c', hread, hc'⟩ := readLexeme_sign (mem_signs_of_not_mem_words hm) hrest hc
        refine ⟨c', ?_, hc'⟩
        rw [hread, Lexeme.full, if_neg fun h => hm h.2, hspelling]
    · rw [if_neg hspelling] at hl hc
      obtain ⟨l', c', hread, hc', hmark, -⟩ := readLexeme_word hl.1 hrest hc
      rw [String.ofList_toList] at hmark
      rw [hmark m hl.2] at hread
      exact ⟨c', by rw [hread, Lexeme.full, if_neg fun h => hspelling h.1], hc'⟩

/-- What is written begins with a character that is no part of a gap. -/
theorem spelled_begins (hl : l.Writable limits) :
    ∃ ch cs, l.spelled = ch :: cs ∧ Text.isBlank ch = false ∧ ch ≠ '#' := by
  have hletters {word : List Char} (hne : word ≠ [])
      (hword : ∀ c ∈ word, Text.isLetter c ∨ c.isDigit) :
      ∃ ch cs, word = ch :: cs ∧ Text.isBlank ch = false ∧ ch ≠ '#' := by
    obtain ⟨ch, cs, rfl⟩ := List.exists_cons_of_ne_nil hne
    exact ⟨ch, cs, rfl, not_gap_of_isLetter (hword ch List.mem_cons_self)⟩
  cases l with
  | endOfInput | float => cases hl
  | identifier name => exact hletters hl.1.ne_nil fun c hc => .inl (hl.1.letters c hc)
  | integer value =>
    refine hletters Nat.toDigits_ne_nil fun c hc => .inr ?_
    exact Nat.isDigit_of_mem_toDigits (by decide) (by decide) hc
  | string text => exact ⟨_, _, rfl, rfl, by decide⟩
  | mark m spelling =>
    rw [Lexeme.spelled]
    rw [Lexeme.Writable] at hl
    by_cases hspelling : spelling = ""
    · rw [if_pos hspelling] at hl ⊢
      by_cases hm : m ∈ Mark.words
      · obtain ⟨hne, hword, -⟩ := isLetter_of_mem_words hm
        exact hletters hne fun c hc => .inl (hword c hc)
      · have hspells := spells_name (mem_signs_of_not_mem_words hm)
        rcases hname : m.name.toList with _ | ⟨a, cs⟩ <;> rw [hname] at hspells
        · cases hspells
        · have ha : isSymbol a := by
            rcases cs with _ | ⟨b, _ | ⟨d, ds⟩⟩ <;> simp_all [spells]
          simp only [isSymbol, Bool.and_eq_true, Bool.not_eq_true', decide_eq_true_eq] at ha
          exact ⟨a, cs, rfl, ha.1.2, ha.2⟩
    · rw [if_neg hspelling] at hl ⊢
      exact hletters hl.1.ne_nil fun c hc => .inl (hl.1.letters c hc)

end Lexemes

section Texts

variable {limits : Limits}

/-- A token is scanned, with the blanks and comments before it. -/
theorem scan_spelled {l : Lexeme} (hl : l.Writable limits) {w rest : List Char} (hw : IsTrivia w)
    (hrest : Parted rest) {c : Cursor} (hc : c.rest = w ++ (l.spelled ++ rest)) :
    ∃ t c', scan limits c = (.ok t, c') ∧ t.lexeme = l.full ∧ c'.rest = rest := by
  obtain ⟨ch, cs, hspelled, hblank, hhash⟩ := spelled_begins hl
  have hgap : Gap.blanks.after ch = none := by
    simp [Gap.after, hblank, hhash]
  have hskip : (skipGap .blanks c.rest c.here c.last).rest = l.spelled ++ rest := by
    rw [skipGap_rest, hc, pass_trivia hw, hspelled, List.cons_append]
    simp [pass, hgap]
  obtain ⟨c', hread, hc'⟩ := readLexeme_spelled hl hrest hskip
  refine ⟨⟨l.full, (skipGap .blanks c.rest c.here c.last).here, c'.last⟩, c', ?_, rfl, hc'⟩
  rw [scan, hread]
  cases hfull : l.full with
  | endOfInput =>
    have hsaid := Lexeme.said_full l
    rw [hfull] at hsaid
    cases l with
    | endOfInput => cases hl
    | _ => cases hsaid
  | _ => rfl

/-- The rest of what is written after its first token. -/
theorem Spread.tail {l : Lexeme} {ls : List Lexeme} {cs : List Char} (h : Spread (l :: ls) cs) :
    ∃ w rest, cs = l.spelled ++ (w ++ rest) ∧ IsTrivia w ∧ Parted (w ++ rest) ∧ Spread ls rest := by
  cases h with
  | one => exact ⟨[], [], by simp, .none, by simp [Parted], .none⟩
  | more hw hne h => exact ⟨_, _, rfl, hw, parted_trivia hw hne _, h⟩

/-- What is written with blanks or comments between the tokens is scanned as these tokens. -/
theorem scanAll_spread {ls : List Lexeme} (hls : ∀ l ∈ ls, l.Writable limits) {fuel : Nat}
    {c : Cursor} {w cs : List Char} (hw : IsTrivia w) (hcs : Spread ls cs) (hc : c.rest = w ++ cs)
    (hfuel : c.rest.length < fuel) :
    (scanAll limits fuel c).tokens.map Token.lexeme = ls.map Lexeme.full ∧
      ∃ e, (scanAll limits fuel c).ending = .ok e ∧ e.lexeme = .endOfInput := by
  induction ls generalizing fuel c w cs with
  | nil =>
    cases hcs
    obtain ⟨fuel, rfl⟩ := Nat.exists_eq_add_one_of_ne_zero (Nat.ne_zero_of_lt hfuel)
    have hnil : (pass .blanks c.rest).2 = [] := by rw [hc, pass_trivia hw]; rfl
    obtain ⟨-, t, c', hscan, ht⟩ | ⟨hne, -⟩ := scan_cases limits c
    · rw [scanAll, hscan]
      dsimp only
      rw [ht]
      exact ⟨rfl, t, rfl, ht⟩
    · exact absurd hnil hne
  | cons l ls ih =>
    obtain ⟨fuel, rfl⟩ := Nat.exists_eq_add_one_of_ne_zero (Nat.ne_zero_of_lt hfuel)
    obtain ⟨u, rest, rfl, hu, hparted, hrest⟩ := hcs.tail
    have hl := hls l List.mem_cons_self
    obtain ⟨t, c', hscan, hfull, hc'⟩ := scan_spelled hl hw hparted hc
    obtain ⟨ch, tail, hbegins, -⟩ := spelled_begins hl
    have hlt : c'.rest.length < fuel := by
      rw [hc, hbegins] at hfuel
      rw [hc']
      simp only [List.length_append, List.length_cons] at hfuel ⊢
      omega
    obtain ⟨htokens, e, hending⟩ :=
      ih (fun l hl => hls l (List.mem_cons_of_mem _ hl)) hu hrest hc' hlt
    rw [scanAll, hscan]
    dsimp only
    split
    · next hend =>
      have hsaid := Lexeme.said_full l
      rw [← hfull, hend] at hsaid
      cases l with
      | endOfInput => cases hl
      | _ => cases hsaid
    · exact ⟨by simp [htokens, hfull], e, hending⟩

/-- What is written with spaces between the tokens is scanned as these tokens. -/
theorem tokenize_written {ls : List Lexeme} (hls : ∀ l ∈ ls, l.Writable limits) :
    (tokenize limits (Bytes.ofString (String.ofList (written ls)))).tokens.map
        (fun t => t.lexeme.said) = ls.map Lexeme.said ∧
      ∃ e, (tokenize limits (Bytes.ofString (String.ofList (written ls)))).ending = .ok e := by
  obtain ⟨htokens, e, he, -⟩ := scanAll_spread hls .none (spread_written ls)
    (c := .ofText (Bytes.ofString (String.ofList (written ls)))) (Bytes.chars_ofString _)
    (Nat.lt_succ_self _)
  refine ⟨?_, e, he⟩
  have hsaid := congrArg (List.map Lexeme.said) htokens
  rw [List.map_map, List.map_map] at hsaid
  exact hsaid.trans (List.map_congr_left fun l _ => Lexeme.said_full l)

end Texts

section Scanned

variable {limits : Limits}

theorem name_of_ofWord {word : String} {m : Mark} (h : Mark.ofWord? word = some m)
    (hm : m ∈ Mark.words) : word = m.name := by
  have hall : ∀ p ∈ Mark.reserved, p.2 ∈ Mark.words → p.1 = p.2.name := by decide
  obtain ⟨before, after, hreserved, -⟩ := List.lookup_eq_some_iff.mp h
  exact hall (word, m) (by rw [hreserved]; simp) hm

theorem isLetter_of_ofWord {word : String} {m : Mark} (h : Mark.ofWord? word = some m) :
    ∀ c ∈ word.toList, Text.isLetter c := by
  have hall : ∀ p ∈ Mark.reserved, p.1.toList.all Text.isLetter := by decide +kernel
  obtain ⟨before, after, hreserved, -⟩ := List.lookup_eq_some_iff.mp h
  exact List.all_eq_true.mp (hall (word, m) (by rw [hreserved]; simp))

theorem not_mem_words_of_mem_signs {m : Mark} (hm : m ∈ Mark.signs) : m ∉ Mark.words := by
  have hall : ∀ m ∈ Mark.signs, m ∉ Mark.words := by decide
  exact hall m hm

theorem mem_signs_of_ofChars {ch : Char} {next : Option Char} {m : Mark} {long : Bool}
    (h : Mark.ofChars? ch next = some (m, long)) : m ∈ Mark.signs := by
  unfold Mark.ofChars? at h
  split at h <;> cases h <;> decide

namespace Lexeme

/-- What may come out of a scan can be written. -/
theorem Valid.writable {l : Lexeme} (hl : l.Valid limits) : l.Writable limits := by
  cases l with
  | mark m spelling =>
    simp only [Valid, Writable] at hl ⊢
    split at hl
    · next hspelling =>
      rw [if_pos hspelling]
      exact fun hm => absurd hm (not_mem_words_of_mem_signs hl)
    · next hspelling =>
      rw [if_neg hspelling]
      exact ⟨⟨fun hnil => hspelling (String.toList_eq_nil_iff.mp hnil), isLetter_of_ofWord hl.1,
        hl.2⟩, hl.1⟩
  | identifier | integer | string => exact hl
  | endOfInput | float => cases hl

/-- What may come out of a scan is all there. -/
theorem Valid.full_eq {l : Lexeme} (hl : l.Valid limits) : l.full = l := by
  cases l with
  | mark m spelling =>
    simp only [Valid] at hl
    rw [full, if_neg]
    rintro ⟨hspelling, hm⟩
    rw [if_pos hspelling] at hl
    exact not_mem_words_of_mem_signs hl hm
  | _ => rfl

theorem Valid.said_writable {l : Lexeme} (hl : l.Valid limits) : l.said.Writable limits := by
  cases l with
  | mark m spelling =>
    refine writable_of.mpr fun hm => ?_
    simp only [Valid] at hl
    split at hl
    · exact absurd hm (not_mem_words_of_mem_signs hl)
    · rw [← name_of_ofWord hl.1 hm]
      exact hl.2
  | _ => exact hl.writable

end Lexeme

theorem digitValue_le {c : Char} (h : c.isDigit) : digitValue c ≤ 9 := by
  simp only [Char.isDigit, Bool.and_eq_true, decide_eq_true_eq, UInt32.le_iff_toNat_le] at h
  have hlast : c.toNat ≤ 57 := h.2
  rw [digitValue]
  omega

theorem readInteger_le {value count : Nat} {cs : List Char} {value' count' : Nat}
    (hvalue : value ≤ maxInteger) (h : readInteger value count cs = .ok (value', count')) :
    value' ≤ maxInteger := by
  induction cs generalizing value count with
  | nil =>
    cases h
    exact hvalue
  | cons c cs ih =>
    rw [readInteger] at h
    split at h
    · next hdigit =>
      split at h
      · cases h
      · next hle =>
        refine ih ?_ h
        have hd := digitValue_le hdigit
        have hmax : 9 ≤ maxInteger := by decide
        omega
    · cases h
      exact hvalue

/-- The characters that may come to stand in a string literal. -/
private def inString (c : Char) : Prop := Text.isPrintable c ∨ c = '\n' ∨ c = '\t'

theorem readString_valid {limit : Nat} {start : Position} {length : Nat} {text cs : List Char}
    {here last : Position} (htext : ∀ c ∈ text, inString c) (hlength : text.length = length)
    (hlimit : length ≤ limit) {l : Lexeme}
    (h : (readString limit start length text cs here last).1 = .ok l) :
    ∃ t : String, l = .string t ∧ (∀ c ∈ t.toList, inString c) ∧ t.toList.length ≤ limit := by
  fun_induction readString limit start length text cs here last with
  | case2 =>
    cases h
    refine ⟨_, rfl, ?_, ?_⟩
    · simpa using htext
    · simpa [hlength] using hlimit
  | case7 length text here last hshort code rest c hcode _ _ ih =>
    refine ih ?_ (by simp [hlength]) (by omega) h
    rintro d (_ | ⟨_, hd⟩)
    · unfold unescape? at hcode
      split at hcode <;> cases hcode <;> simp [inString] <;> decide
    · exact htext d hd
  | case8 length text ch rest here last hquote hprint hshort hslash ih =>
    refine ih ?_ (by simp [hlength]) (by omega) h
    rintro d (_ | ⟨_, hd⟩)
    · exact .inl (by simpa using hprint)
    · exact htext d hd
  | _ => cases h

/-- Whatever is read is valid, floats apart. -/
theorem readLexeme_valid {c : Cursor} {l : Lexeme} (h : (readLexeme limits c).1 = .ok l)
    (hend : l ≠ .endOfInput) (hfloat : l.kind ≠ .float) : l.Valid limits := by
  unfold readLexeme at h
  split at h
  · cases h
    exact absurd rfl hend
  · next ch cs hc =>
    split at h
    · next hletter =>
      unfold readWord at h
      dsimp only at h
      split at h
      · cases h
      · next hshort =>
        have hword : IsWord limits (String.ofList (c.rest.takeWhile Text.isLetter)).toList := by
          rw [String.toList_ofList]
          refine ⟨by simp [hc, hletter], fun d hd => ?_, ?_⟩
          · exact List.all_eq_true.mp List.all_takeWhile d hd
          · exact Nat.not_lt.mp hshort
        dsimp only at h
        split at h
        · next m hm =>
          cases h
          rw [Lexeme.Valid, if_neg fun hnil => hword.ne_nil (String.toList_eq_nil_iff.mpr hnil)]
          exact ⟨hm, hword.short⟩
        · next hnone =>
          cases h
          exact ⟨hword, hnone⟩
    · split at h
      · cases hint : readInteger 0 0 c.rest with
        | error count =>
          rw [readNumber, hint] at h
          cases h
        | ok p =>
          obtain ⟨value, count⟩ := p
          rw [readNumber_of_ok hint] at h
          split at h
          · split at h
            · cases h
            · cases h
              exact absurd rfl hfloat
          · cases h
            exact readInteger_le (Nat.zero_le _) hint
      · split at h
        · obtain ⟨t, rfl, htext, hlength⟩ :=
            readString_valid (fun _ hd => absurd hd List.not_mem_nil) rfl (Nat.zero_le _) h
          exact ⟨htext, hlength⟩
        · unfold readSign at h
          dsimp only at h
          split at h
          · next hm =>
            cases h
            exact mem_signs_of_ofChars hm
          · next hm =>
            cases h
            exact mem_signs_of_ofChars hm
          · cases h

theorem scanAll_valid {fuel : Nat} {c : Cursor} {t : Token}
    (ht : t ∈ (scanAll limits fuel c).tokens) (hfloat : t.kind ≠ .float) :
    t.lexeme.Valid limits := by
  induction fuel generalizing c with
  | zero => cases ht
  | succ fuel ih =>
    rw [scanAll] at ht
    split at ht
    · cases ht
    · next t' c' hscan =>
      split at ht
      · cases ht
      · next hend =>
        obtain rfl | ht := List.mem_cons.mp ht
        · refine readLexeme_valid (c := skipGap .blanks c.rest c.here c.last) ?_ ?_ hfloat
          · rw [scan] at hscan
            split at hscan
            · cases hscan
              exact absurd rfl hend
            · next hread =>
              cases hscan
              rw [hread]
            · cases hscan
          · exact hend
        · exact ih ht

theorem scanAll_writable {fuel : Nat} {c : Cursor} {t : Token}
    (ht : t ∈ (scanAll limits fuel c).tokens) (hfloat : t.kind ≠ .float) :
    t.lexeme.said.Writable limits := (scanAll_valid ht hfloat).said_writable

theorem scanAll_ending {fuel : Nat} {c : Cursor} {e : Token}
    (he : (scanAll limits fuel c).ending = .ok e) : e.lexeme = .endOfInput := by
  induction fuel generalizing c with
  | zero =>
    cases he
    rfl
  | succ fuel ih =>
    rw [scanAll] at he
    split at he
    · cases he
    · next t c' hscan =>
      split at he
      · next hend =>
        cases he
        exact hend
      · exact ih he

end Scanned

/-- Scanning undoes writing. Whatever is scanned is valid, and valid tokens that are written down,
with blanks or comments between them, are scanned as they were. -/
theorem tokenize_spread (limits : Limits) :
    (∀ text, ∀ t ∈ (tokenize limits text).all, t.kind ≠ .endOfInput → t.kind ≠ .float →
      t.lexeme.Valid limits) ∧
    ∀ ls cs, (∀ l ∈ ls, l.Valid limits) → Spread ls cs →
      (tokenize limits (Bytes.ofString (String.ofList cs))).all.map Token.lexeme =
        ls ++ [.endOfInput] := by
  refine ⟨fun text t ht hend hfloat => ?_, fun ls cs hls hcs => ?_⟩
  · unfold Scan.all at ht
    split at ht
    · next e he =>
      obtain ht | ht := List.mem_append.mp ht
      · exact scanAll_valid ht hfloat
      · rw [List.mem_singleton.mp ht, Token.kind, scanAll_ending he] at hend
        exact absurd rfl hend
    · exact scanAll_valid ht hfloat
  · obtain ⟨htokens, e, he, hend⟩ := scanAll_spread (fun l hl => (hls l hl).writable) .none hcs
      (c := .ofText (Bytes.ofString (String.ofList cs))) (Bytes.chars_ofString _)
      (Nat.lt_succ_self _)
    have hfull : ls.map Lexeme.full = ls :=
      List.map_congr_left (g := id) (fun l hl => (hls l hl).full_eq) |>.trans (List.map_id ls)
    rw [hfull] at htokens
    simp only [Scan.all, tokenize, he, List.map_append, htokens, List.map_cons, hend, List.map_nil]

/-- A fence in a string, one that closes a comment, and a sign that is spelled out. -/
theorem tokenize_spread_fences :
    let text : Bytes := "x##a#b##\t# y\n\"\\\"##\"\npurasu"
    (tokenize {} text).all.map Token.lexeme =
        [.identifier "x", .string "\"##", .mark .plus "purasu", .endOfInput] ∧
      ∃ t ∈ (tokenize {} text).all, t.lexeme = .string "\"##" ∧ t.lexeme.Valid {} := by
  intro text
  let ls : List Lexeme := [.identifier "x", .string "\"##", .mark .plus "purasu"]
  obtain ⟨hscanned, hwritten⟩ := tokenize_spread {}
  have hgap : IsTrivia "##a#b##\t# y\n".toList :=
    .more (.block "a#b".toList (by decide)) <| .more (.blank (c := '\t') rfl) <|
      .more (.line " y".toList (by decide) (by decide)) .none
  have hspread : Spread ls "x##a#b##\t# y\n\"\\\"##\"\npurasu".toList :=
    .more hgap (by decide) <| .more (w := ['\n']) (IsTrivium.blank rfl).trivia (by decide) <|
      .one (.mark .plus "purasu")
  have hvalid : ∀ l ∈ ls, l.Valid {} := by
    intro l hl
    simp only [ls, List.mem_cons, List.not_mem_nil, or_false] at hl
    obtain rfl | rfl | rfl := hl
    · exact ⟨by decide +kernel, by decide +kernel⟩
    · exact ⟨fun c hc => .inl (List.all_eq_true.mp (by decide +kernel) c hc), by decide⟩
    · exact ⟨by decide, by decide⟩
  have htokens := hwritten ls _ hvalid hspread
  refine ⟨htokens, ?_⟩
  obtain ⟨t, ht, hlexeme⟩ : ∃ t ∈ (tokenize {} text).all, t.lexeme = .string "\"##" :=
    List.mem_map.mp (by rw [show (tokenize {} text).all.map Token.lexeme = _ from htokens]; simp [ls])
  exact ⟨t, ht, hlexeme, hscanned text t ht (by simp [Token.kind, hlexeme, Lexeme.kind])
    (by simp [Token.kind, hlexeme, Lexeme.kind])⟩

/-- A reserved word that is longer than a name may be is not scanned. -/
theorem tokenize_long_word :
    Mark.ofWord? "yomu" = some .print ∧ Spread [.mark .print "yomu"] "yomu".toList ∧
      (tokenize (.ofSettings 3 0) "yomu").all.map Token.lexeme ≠
        [.mark .print "yomu", .endOfInput] := by
  refine ⟨by decide, .one (.mark .print "yomu"), fun h => ?_⟩
  have hnone : (tokenize (.ofSettings 3 0) "yomu").all.length = 0 := by decide +kernel
  have hlength := congrArg List.length h
  rw [List.length_map, hnone] at hlength
  cases hlength

end Kotoba.Token
