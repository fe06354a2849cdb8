import Kotoba.Proofs.Machine.Result
import Kotoba.Proofs.Text.Utf8

/-! Characters and their codes. The code of a character, and no other integer, makes a text of that
character; a text of one character, and no other text, has a code; and either way undoes the other.
Two texts are together as long as one after the other. -/
namespace Kotoba

namespace Bytes

/-- A text that is encoded shows its characters. -/
theorem chars_ofText (text : String) : (ofString text).chars = text.toList := by
  have h := chars_ofString text.toList
  rwa [String.ofList_toList] at h

theorem length_ofText (text : String) : (ofString text).length = text.length := by
  rw [length_eq_length_chars, chars_ofText, String.length_toList]

end Bytes

namespace Machine

/-- Whether an integer is a scalar value of Unicode: a code point, and none of the surrogates. -/
def IsScalar (n : Int64) : Prop :=
  0 ≤ n.toInt ∧ n.toInt ≤ 0x10FFFF ∧ ¬ (0xD800 ≤ n.toInt ∧ n.toInt ≤ 0xDFFF)

instance (n : Int64) : Decidable (IsScalar n) := inferInstanceAs (Decidable (_ ∧ _ ∧ _))

theorem isScalar_iff (n : Int64) : IsScalar n ↔ 0 ≤ n ∧ n.toNatClampNeg.isValidChar := by
  have hle : 0 ≤ n ↔ 0 ≤ n.toInt := Int64.le_iff_toInt_le
  rw [hle, IsScalar, Nat.isValidChar, Int64.toNatClampNeg]
  omega

/-- The code of a character. -/
def code (c : Char) : Int64 := Int64.ofNat c.toNat

theorem toNatClampNeg_code (c : Char) : (code c).toNatClampNeg = c.toNat := by
  have hvalid : c.toNat.isValidChar := c.valid
  apply Int64.toNatClampNeg_ofNat_of_lt
  unfold Nat.isValidChar at hvalid
  omega

/-- The scalar values are the codes of characters. -/
theorem isScalar_iff_exists_code (n : Int64) : IsScalar n ↔ ∃ c, code c = n := by
  constructor
  · intro h
    obtain ⟨hle, hvalid⟩ := (isScalar_iff n).mp h
    refine ⟨Char.ofNat n.toNatClampNeg, ?_⟩
    have hnat : (Char.ofNat n.toNatClampNeg).toNat = n.toNatClampNeg := by
      rw [Char.ofNat, dif_pos hvalid]
      rfl
    rw [code, hnat, Int64.ofNat_toNatClampNeg n hle]
  · rintro ⟨c, rfl⟩
    have hvalid : c.toNat.isValidChar := c.valid
    have hint : (code c).toInt = c.toNat := by
      apply Int64.toInt_ofNat_of_lt
      unfold Nat.isValidChar at hvalid
      omega
    rw [IsScalar, hint]
    unfold Nat.isValidChar at hvalid
    omega

section Rules

variable (store : Store)

theorem charOfCode_code (c : Char) :
    charOfCode store (.int (code c)) = .ok (.string (Bytes.ofString (String.singleton c))) := by
  have hcode := (isScalar_iff _).mp ((isScalar_iff_exists_code _).mpr ⟨c, rfl⟩)
  rw [charOfCode, if_pos hcode, toNatClampNeg_code, Char.ofNat_toNat]

theorem charOfCode_of_not_isScalar {n : Int64} (h : ¬ IsScalar n) :
    charOfCode store (.int n) = .error (.notCode (store.describe (.int n))) := by
  rw [charOfCode, if_neg (mt (isScalar_iff n).mpr h)]

theorem codeOfChar_singleton (c : Char) :
    codeOfChar store (.string (Bytes.ofString (String.singleton c))) = .ok (.int (code c)) := by
  rw [codeOfChar, Bytes.chars_ofText, String.toList_singleton]
  rfl

theorem codeOfChar_of_length_ne_one {text : String} (h : text.length ≠ 1) :
    codeOfChar store (.string (Bytes.ofString text)) =
      .error (.notCharacter (store.describe (.string (Bytes.ofString text)))) := by
  rw [codeOfChar, Bytes.chars_ofText]
  split
  · next c hc => exact absurd (by rw [← String.length_toList, hc, List.length_singleton]) h
  · rfl

theorem lengthOf_ofText (text : String) :
    lengthOf store (.string (Bytes.ofString text)) = .ok (.int (Int64.ofNat text.length)) := by
  rw [lengthOf, Bytes.length_ofText]

end Rules

section Evaluation

variable {run : Run} {e : Expr} {m m' : Machine} {v : Value} (span : Span)

theorem evalExpr_charOf_of_ok (h : evalExpr run e m = .ok v m') :
    evalExpr run (.charOf e span) m = Eval.ofExcept span (charOfCode m'.store v) m' := by
  rw [evalExpr_charOf, Step.bind_apply, h]
  rfl

theorem evalExpr_codeOf_of_ok (h : evalExpr run e m = .ok v m') :
    evalExpr run (.codeOf e span) m = Eval.ofExcept span (codeOfChar m'.store v) m' := by
  rw [evalExpr_codeOf, Step.bind_apply, h]
  rfl

theorem evalExpr_length_of_ok (h : evalExpr run e m = .ok v m') :
    evalExpr run (.length e span) m = Eval.ofExcept span (lengthOf m'.store v) m' := by
  rw [evalExpr_length, Step.bind_apply, h]
  rfl

theorem evalExpr_sum_of_ok {right : Expr} {m'' : Machine} {w : Value} (layer : Layer) (opSpan : Span)
    (h : evalExpr run e m = .ok v m') (hright : evalExpr run right m' = .ok w m'') :
    evalExpr run (.binary layer e ⟨.add, opSpan⟩ right span) m =
      Eval.ofExcept span (arithmetic .add v w) m'' := by
  rw [evalExpr_binary, Step.bind_apply, h]
  dsimp only
  rw [Step.bind_apply, hright]
  rfl

end Evaluation

/-- The rules for characters, codes and lengths. An integer makes a text if and only if it is a
scalar value; the text has one character, which has that integer for its code. A text has a code if
and only if it has one character; the code makes that text again. What `+` makes of two texts has
the sum of their lengths. -/
theorem codes_inverse (run : Run) (e : Expr) (m m' : Machine) (span span' : Span) :
    (∀ n, evalExpr run e m = .ok (.int n) m' →
      (IsScalar n → ∃ text : String, text.length = 1 ∧
        evalExpr run (.charOf e span) m = .ok (.string (Bytes.ofString text)) m' ∧
        evalExpr run (.length (.charOf e span) span') m = .ok (.int 1) m' ∧
        evalExpr run (.codeOf (.charOf e span) span') m = .ok (.int n) m') ∧
      (¬ IsScalar n → evalExpr run (.charOf e span) m =
        .error ⟨.notCode (m'.store.describe (.int n)), span⟩ m')) ∧
    (∀ text : String, evalExpr run e m = .ok (.string (Bytes.ofString text)) m' →
      (text.length = 1 → ∃ n, IsScalar n ∧
        evalExpr run (.codeOf e span) m = .ok (.int n) m' ∧
        evalExpr run (.charOf (.codeOf e span) span') m =
          .ok (.string (Bytes.ofString text)) m') ∧
      (text.length ≠ 1 → evalExpr run (.codeOf e span) m =
        .error ⟨.notCharacter (m'.store.describe (.string (Bytes.ofString text))), span⟩ m')) ∧
    ∀ (right : Expr) (m'' : Machine) (s t : String) (layer : Layer) (opSpan : Span),
      evalExpr run e m = .ok (.string (Bytes.ofString s)) m' →
      evalExpr run right m' = .ok (.string (Bytes.ofString t)) m'' →
      evalExpr run (.length (.binary layer e ⟨.add, opSpan⟩ right span) span') m =
        .ok (.int (Int64.ofNat (s.length + t.length))) m'' ∧
      evalExpr run (.binary layer (.length e span) ⟨.add, opSpan⟩ (.length right span) span') m =
        .ok (.int (Int64.ofNat (s.length + t.length))) m'' := by
  refine ⟨fun n hn => ⟨fun hscalar => ?_, fun hscalar => ?_⟩,
    fun text htext => ⟨fun hone => ?_, fun hne => ?_⟩, fun right m'' s t layer opSpan hs ht => ?_⟩
  · obtain ⟨c, rfl⟩ := (isScalar_iff_exists_code n).mp hscalar
    have hchar : evalExpr run (.charOf e span) m =
        .ok (.string (Bytes.ofString (String.singleton c))) m' := by
      rw [evalExpr_charOf_of_ok span hn, charOfCode_code]
      rfl
    refine ⟨String.singleton c, String.length_singleton, hchar, ?_, ?_⟩
    · rw [evalExpr_length_of_ok span' hchar, lengthOf_ofText, String.length_singleton]
      rfl
    · rw [evalExpr_codeOf_of_ok span' hchar, codeOfChar_singleton]
      rfl
  · rw [evalExpr_charOf_of_ok span hn, charOfCode_of_not_isScalar _ hscalar]
    rfl
  · obtain ⟨c, hc⟩ := List.length_eq_one_iff.mp (text.length_toList.trans hone)
    obtain rfl : text = String.singleton c := by
      rw [← String.toList_inj, hc, String.toList_singleton]
    have hcode : evalExpr run (.codeOf e span) m = .ok (.int (code c)) m' := by
      rw [evalExpr_codeOf_of_ok span htext, codeOfChar_singleton]
      rfl
    refine ⟨code c, (isScalar_iff_exists_code _).mpr ⟨c, rfl⟩, hcode, ?_⟩
    rw [evalExpr_charOf_of_ok span' hcode, charOfCode_code]
    rfl
  · rw [evalExpr_codeOf_of_ok span htext, codeOfChar_of_length_ne_one _ hne]
    rfl
  · have hsum : evalExpr run (.binary layer e ⟨.add, opSpan⟩ right span) m =
        .ok (.string (Bytes.ofString (s ++ t))) m'' := by
      rw [evalExpr_sum_of_ok span layer opSpan hs ht, Bytes.ofString_append]
      rfl
    have hleft : evalExpr run (.length e span) m = .ok (.int (Int64.ofNat s.length)) m' := by
      rw [evalExpr_length_of_ok span hs, lengthOf_ofText]
      rfl
    have hright : evalExpr run (.length right span) m' = .ok (.int (Int64.ofNat t.length)) m'' := by
      rw [evalExpr_length_of_ok span ht, lengthOf_ofText]
      rfl
    constructor
    · rw [evalExpr_length_of_ok span' hsum, lengthOf_ofText, String.length_append]
      rfl
    · rw [evalExpr_sum_of_ok span' layer opSpan hleft hright, Int64.ofNat_add]
      rfl

/-- Where the surrogates begin and where the codes end, a character of four bytes, and two texts. -/
theorem codes_inverse_ends :
    let eval := evalExpr (runBody 0 0)
    (∃ text : String, text.length = 1 ∧
      eval (.charOf (.int 0xD7FF {}) {}) {} = .ok (.string (Bytes.ofString text)) {} ∧
      eval (.codeOf (.charOf (.int 0xD7FF {}) {}) {}) {} = .ok (.int 0xD7FF) {}) ∧
    (∃ text : String, eval (.charOf (.int 0x10FFFF {}) {}) {} =
      .ok (.string (Bytes.ofString text)) {}) ∧
    (∃ fault, eval (.charOf (.int 0xD800 {}) {}) {} = .error fault {}) ∧
    (∃ n, IsScalar n ∧ eval (.codeOf (.string "😀" {}) {}) {} = .ok (.int n) {} ∧
      eval (.charOf (.codeOf (.string "😀" {}) {}) {}) {} = .ok (.string "😀") {}) ∧
    (∃ fault, eval (.codeOf (.string "é€" {}) {}) {} = .error fault {}) ∧
    eval (.length (.binary .additive (.string "é€" {}) ⟨.add, {}⟩ (.string "😀" {}) {}) {}) {} =
      .ok (.int 3) {} := by
  intro eval
  have hcodes (n : Int64) := (codes_inverse (runBody 0 0) (.int n {}) {} {} {} {}).1 n rfl
  have htexts (s : String) := (codes_inverse (runBody 0 0) (.string s {}) {} {} {} {}).2
  obtain ⟨text, hone, hchar, -, hcode⟩ := (hcodes 0xD7FF).1 (by decide)
  obtain ⟨last, -, hlast, -, -⟩ := (hcodes 0x10FFFF).1 (by decide)
  exact ⟨⟨text, hone, hchar, hcode⟩, ⟨last, hlast⟩, ⟨_, (hcodes 0xD800).2 (by decide)⟩,
    ((htexts "😀").1 "😀" rfl).1 rfl, ⟨_, ((htexts "é€").1 "é€" rfl).2 (by decide)⟩,
    ((htexts "é€").2 (.string "😀" {}) {} "é€" "😀" .additive {} rfl rfl).1⟩

end Machine

end Kotoba
