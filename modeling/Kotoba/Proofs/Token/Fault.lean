import Kotoba.Proofs.Source.Position

/-! Where faults are reported. The positions a scan speaks of, those of its tokens and that of the
fault it may end with, are positions in the text, and tokens stand in their order. -/
namespace Kotoba

namespace Token

section Faults

variable {limits : Limits} {text : List Char} {n : Nat} {c c' : Cursor} {f : Fault}

theorem Cursor.At.here_in (h : c.At text n) : c.here.In text := by
  rw [h.here]
  exact Position.in_past text n

theorem readString_fault {limit : Nat} {start : Position} {length : Nat} {said cs : List Char}
    {here last : Position} (hstart : start.In text) (hat : Cursor.At text n ⟨cs, here, last⟩)
    (h : readString limit start length said cs here last = (.error f, c')) :
    f.position.In text := by
  fun_induction readString limit start length said cs here last generalizing n with
  | case1 | case4 | case5 =>
    cases h
    exact hstart
  | case2 => cases h
  | case3 | case6 =>
    cases h
    exact hat.here_in
  | case7 length said here last hlimit code rest c hcode hquote hprint ih =>
    have hslash := hat.next (by simp)
    exact ih (hslash.next (by simp [Cursor.next])) h
  | case8 length said ch rest here last hquote hprint hlimit hslash ih =>
    exact ih (hat.next (by simp)) h

theorem readNumber_fault (hat : c.At text n) (h : readNumber c = (.error f, c')) :
    f.position.In text := by
  cases hint : readInteger 0 0 c.rest with
  | error count =>
    rw [readNumber, hint] at h
    cases h
    exact hat.here_in
  | ok p =>
    obtain ⟨value, count⟩ := p
    obtain ⟨digits, rest, hsplit, -, -, hcount, -⟩ := readInteger_reads hint
    rw [Nat.zero_add] at hcount
    have hwhole : (c.skip count).At text (n + count) := by
      refine hat.skip ?_
      rw [hsplit, List.length_append, hcount]
      exact Nat.le_add_right _ _
    rw [readNumber_of_ok hint] at h
    split at h
    · next hpoint =>
      split at h
      · cases h
        refine (hwhole.next fun hnil => ?_).here_in
        rw [hnil] at hpoint
        cases hpoint
      · cases h
    · cases h

/-- What cannot be read is reported at a position in the text. -/
theorem readLexeme_fault (hat : c.At text n) (h : readLexeme limits c = (.error f, c')) :
    f.position.In text := by
  cases hc : c.rest with
  | nil =>
    rw [readLexeme, hc] at h
    cases h
  | cons ch cs =>
    simp only [readLexeme, hc] at h
    split at h
    · simp only [readWord] at h
      split at h
      · cases h
        exact hat.here_in
      · cases h
    · split at h
      · exact readNumber_fault hat h
      · split at h
        · exact readString_fault hat.here_in (hat.next (by simp [hc])) h
        · simp only [readSign] at h
          split at h
          · cases h
          · cases h
          · cases h
            exact hat.here_in

theorem scan_fault (hat : c.At text n) (h : scan limits c = (.error f, c')) :
    f.position.In text := by
  obtain ⟨w, hw⟩ := skipGap_moves .blanks c.rest c.here c.last
  have hat₀ := hat.moves hw
  simp only [scan] at h
  split at h
  · cases h
  · cases h
  · next hread =>
    cases h
    exact readLexeme_fault hat₀ hread

theorem scanAll_fault (fuel : Nat) (hat : c.At text n)
    (h : (scanAll limits fuel c).ending = .error f) : f.position.In text := by
  induction fuel generalizing n c with
  | zero => cases h
  | succ fuel ih =>
    rw [scanAll] at h
    cases hscan : scan limits c with
    | mk result c₁ =>
      rw [hscan] at h
      cases result with
      | error f' =>
        cases h
        exact scan_fault hat hscan
      | ok t =>
        dsimp only at h
        split at h
        · cases h
        · next hne =>
          obtain ⟨hend, -⟩ | ⟨-, i, j, -, -, -, hat₁⟩ := scan_places hat hscan
          · exact absurd hend hne
          · exact ih hat₁ h

end Faults

/-- The token with the given number. After the last one comes the end of input, as often as asked,
unless the text ends with a fault. -/
def Scan.token? (a : Scan) (i : Nat) : Option Token :=
  match a.tokens[i]? with
  | some t => some t
  | none => a.ending.toOption

theorem Scan.token?_of_length_le {a : Scan} {i : Nat} {t : Token} (hi : a.tokens.length ≤ i) :
    a.token? i = some t ↔ a.ending = .ok t := by
  rw [Scan.token?, List.getElem?_eq_none hi]
  cases a.ending <;> simp [Except.toOption]

section Order

variable {text : List Char} {n e k l : Nat} {ts : List Token} {t u : Token}

theorem Occupies.span_in {i j : Nat} (h : Occupies text i j t) : Span.In text t.span :=
  ⟨i, j, h.le, Nat.le_of_lt h.lt, h.start, h.stop⟩

/-- A token among others takes up a place that is not before theirs. -/
theorem Laid.occupies (h : Laid text n ts e) (hk : ts[k]? = some t) :
    ∃ i j, n ≤ i ∧ Occupies text i j t := by
  induction h generalizing k with
  | none => simp at hk
  | @more n i j e t' ts hle _ ht _ ih =>
    cases k with
    | zero =>
      cases hk
      exact ⟨i, j, hle, ht⟩
    | succ k =>
      obtain ⟨i', j', hle', hocc⟩ := ih hk
      have hij := ht.le
      exact ⟨i', j', by omega, hocc⟩

theorem Laid.ordered (h : Laid text n ts e) (hkl : k ≤ l) (hk : ts[k]? = some t)
    (hl : ts[l]? = some u) : Span.In text ⟨t.start, u.stop⟩ := by
  induction h generalizing k l with
  | none => simp at hk
  | @more n i j e t' ts hle _ ht hts ih =>
    cases k with
    | succ k =>
      cases l with
      | zero => omega
      | succ l => exact ih (Nat.le_of_succ_le_succ hkl) hk hl
    | zero =>
      cases hk
      cases l with
      | zero =>
        cases hl
        exact ht.span_in
      | succ l =>
        obtain ⟨i', j', hle', hocc⟩ := hts.occupies hl
        have hij := ht.le
        have hij' := hocc.le
        exact ⟨i, j', by omega, Nat.le_of_lt hocc.lt, ht.start, hocc.stop⟩

theorem Laid.before (h : Laid text n ts e) (hkl : k < l) (hk : ts[k]? = some t)
    (hl : ts[l]? = some u) : t.stop.Lt u.start := by
  induction h generalizing k l with
  | none => simp at hk
  | @more n i j e t' ts hle _ ht hts ih =>
    cases l with
    | zero => omega
    | succ l =>
      cases k with
      | succ k => exact ih (Nat.lt_of_succ_lt_succ hkl) hk hl
      | zero =>
        cases hk
        obtain ⟨i', j', hle', hocc⟩ := hts.occupies hl
        have hij' := hocc.le
        have hj' := hocc.lt
        rw [ht.stop, hocc.start]
        exact Position.past_lt (by omega) (by omega)

end Order

section Texts

variable {limits : Limits} {text : Bytes}

private theorem at_ofText (text : Bytes) : (Cursor.ofText text).At text.chars 0 :=
  ⟨rfl, rfl, fun h => absurd h (Nat.lt_irrefl 0)⟩

/-- The tokens of a text are laid out in it, and the end of input stands at its end. -/
theorem laid_tokenize (limits : Limits) (text : Bytes) :
    ∃ e, Laid text.chars 0 (tokenize limits text).tokens e ∧ ∀ t,
      (tokenize limits text).ending = .ok t → t.start = .past text.chars ∧
        t.stop = .past text.chars ∧ IsTrailing (text.chars.drop e) :=
  scanAll_laid (text.chars.length + 1) (at_ofText text) (Nat.lt_succ_self _)

/-- The tokens of a text stand in it in their order, the end of input at the end. -/
theorem tokenize_ordered {k l : Nat} {t u : Token} (hkl : k ≤ l)
    (hk : (tokenize limits text).token? k = some t)
    (hl : (tokenize limits text).token? l = some u) :
    Span.In text.chars ⟨t.start, u.stop⟩ := by
  obtain ⟨e, hlaid, hending⟩ := laid_tokenize limits text
  have hlast : ∀ {t}, (tokenize limits text).ending.toOption = some t →
      t.start = .past (text.chars.take text.chars.length) ∧
        t.stop = .past (text.chars.take text.chars.length) := by
    intro t ht
    rw [List.take_length]
    cases he : (tokenize limits text).ending with
    | error f =>
      rw [he] at ht
      cases ht
    | ok t' =>
      rw [he] at ht
      cases ht
      exact ⟨(hending t he).1, (hending t he).2.1⟩
  unfold Scan.token? at hk hl
  split at hk
  · next hk' =>
    cases hk
    split at hl
    · next hl' =>
      cases hl
      exact hlaid.ordered hkl hk' hl'
    · obtain ⟨i, j, -, hocc⟩ := hlaid.occupies hk'
      have hij := hocc.le
      have hj := hocc.lt
      exact ⟨i, text.chars.length, by omega, Nat.le_refl _, hocc.start, (hlast hl).2⟩
  · next hk' =>
    have hl' : (tokenize limits text).tokens[l]? = none :=
      List.getElem?_eq_none (Nat.le_trans (List.getElem?_eq_none_iff.mp hk') hkl)
    rw [hl'] at hl
    exact ⟨_, _, Nat.le_refl _, Nat.le_refl _, (hlast hk).1, (hlast hl).2⟩

/-- A token of a text stops before the next one starts. -/
theorem tokenize_before {k l : Nat} {t u : Token} (hkl : k < l)
    (hk : (tokenize limits text).tokens[k]? = some t)
    (hl : (tokenize limits text).token? l = some u) : t.stop.Lt u.start := by
  obtain ⟨e, hlaid, hending⟩ := laid_tokenize limits text
  unfold Scan.token? at hl
  split at hl
  · next hl' =>
    cases hl
    exact hlaid.before hkl hk hl'
  · obtain ⟨i, j, -, hocc⟩ := hlaid.occupies hk
    cases he : (tokenize limits text).ending with
    | error f =>
      rw [he] at hl
      cases hl
    | ok e =>
      rw [he] at hl
      cases hl
      have hlt := Position.past_lt hocc.lt (Nat.le_refl text.chars.length)
      rwa [List.take_length, ← hocc.stop, ← (hending u he).1] at hlt

/-- What cannot be scanned is reported at a position in the text. -/
theorem tokenize_fault {f : Fault} (h : (tokenize limits text).ending = .error f) :
    f.position.In text.chars :=
  scanAll_fault _ (at_ofText text) h

end Texts

end Token

end Kotoba
