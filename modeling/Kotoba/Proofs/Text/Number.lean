/-! Integers as text. The digits tell the number, also if something follows that is no digit. -/
namespace Kotoba.Text

theorem toList_toString_int (n : Int) : (toString n).toList =
    match n with
    | .ofNat k => Nat.toDigits 10 k
    | .negSucc k => '-' :: Nat.toDigits 10 (k + 1) := by
  cases n with
  | ofNat k => exact Nat.toList_repr
  | negSucc k =>
    show ("-" ++ Nat.repr (k + 1)).toList = _
    rw [String.toList_append, Nat.toList_repr]
    rfl

private theorem toDigits_injective {m n : Nat} (h : Nat.toDigits 10 m = Nat.toDigits 10 n) :
    m = n := by
  rw [← Nat.ofDigitChars_ten_toDigits (n := m), h, Nat.ofDigitChars_ten_toDigits]

theorem not_mem_toDigits {c : Char} (hc : c.isDigit = false) (n : Nat) :
    c ∉ Nat.toDigits 10 n := by
  intro hmem
  rw [Nat.isDigit_of_mem_toDigits (by decide) (by decide) hmem] at hc
  cases hc

theorem toString_int_injective {m n : Int}
    (h : (toString m).toList = (toString n).toList) : m = n := by
  rw [toList_toString_int, toList_toString_int] at h
  have hminus : ∀ k l, '-' :: Nat.toDigits 10 k ≠ Nat.toDigits 10 l := fun k l heq =>
    not_mem_toDigits (c := '-') (by decide) l (heq ▸ List.mem_cons_self)
  cases m with
  | ofNat k =>
    cases n with
    | ofNat l => rw [toDigits_injective h]
    | negSucc l => exact absurd h.symm (hminus _ _)
  | negSucc k =>
    cases n with
    | ofNat l => exact absurd h (hminus _ _)
    | negSucc l =>
      have hkl := toDigits_injective (List.cons.inj h).2
      rw [show k = l by omega]

/-- Whether a character can be part of an integer. -/
def isNumeral (c : Char) : Bool := c.isDigit || c == '-'

theorem isNumeral_of_mem {c : Char} {n : Int} (h : c ∈ (toString n).toList) : isNumeral c := by
  have hdigit : ∀ k, c ∈ Nat.toDigits 10 k → isNumeral c := fun k hc => by
    rw [isNumeral, Nat.isDigit_of_mem_toDigits (by decide) (by decide) hc, Bool.true_or]
  rw [toList_toString_int] at h
  cases n with
  | ofNat k => exact hdigit k h
  | negSucc k =>
    obtain _ | ⟨_, h⟩ := h
    · rfl
    · exact hdigit _ h

theorem toString_int_ne_nil (n : Int) : (toString n).toList ≠ [] := by
  rw [toList_toString_int]
  cases n with
  | ofNat k => exact Nat.toDigits_ne_nil
  | negSucc k => exact List.cons_ne_nil _ _

/-- Whether an integer does not go on with a text. -/
def EndsNumeral (rest : List Char) : Prop := ∀ c, rest.head? = some c → isNumeral c = false

theorem endsNumeral_cons {c : Char} {rest : List Char} (h : isNumeral c = false) :
    EndsNumeral (c :: rest) := by
  rintro _ ⟨⟩
  exact h

theorem endsNumeral_nil : EndsNumeral [] := by rintro _ ⟨⟩

private theorem takeWhile_isNumeral {n : Int} {rest : List Char} (h : EndsNumeral rest) :
    ((toString n).toList ++ rest).takeWhile isNumeral = (toString n).toList := by
  have hrest : rest.takeWhile isNumeral = [] := by
    cases rest with
    | nil => rfl
    | cons c rest => rw [List.takeWhile_cons, h c rfl]; rfl
  rw [List.takeWhile_append_of_pos fun c hc => isNumeral_of_mem hc, hrest, List.append_nil]

theorem toString_int_cancel {m n : Int} {x y : List Char} (hx : EndsNumeral x)
    (hy : EndsNumeral y) (h : (toString m).toList ++ x = (toString n).toList ++ y) :
    m = n ∧ x = y := by
  have hdigits : (toString m).toList = (toString n).toList := by
    rw [← takeWhile_isNumeral hx, h, takeWhile_isNumeral hy]
  rw [hdigits] at h
  exact ⟨toString_int_injective hdigits, List.append_cancel_left h⟩

theorem toString_nat_cancel {m n : Nat} {x y : List Char} (hx : EndsNumeral x)
    (hy : EndsNumeral y) (h : (toString m).toList ++ x = (toString n).toList ++ y) :
    m = n ∧ x = y := by
  have hint : ∀ k : Nat, toString k = toString (k : Int) := fun _ => rfl
  rw [hint, hint] at h
  obtain ⟨hmn, hxy⟩ := toString_int_cancel hx hy h
  exact ⟨Int.ofNat_inj.mp hmn, hxy⟩

end Kotoba.Text
