import Kotoba.Machine.Operation
import Kotoba.Proofs.Text.Bytes

/-! Repetition of strings. On whichever side of the operator the string stands, it is repeated just
when the result is no longer than it may be. To find that out the length of the result is not
computed: the number of copies is compared with the greatest one that there may be. No number that
comes up goes past the limit, neither that one nor a length on the way to the result. -/
namespace Kotoba

namespace Bytes

/-- Copies of a byte string, one after the other. -/
def copies (n : Nat) (b : Bytes) : Bytes := ofList (List.replicate n b.toList).flatten

theorem size_copies (n : Nat) (b : Bytes) : (copies n b).size = n * b.size := by
  rw [← length_toList, copies, toList_ofList, List.length_flatten, List.map_replicate,
    List.sum_replicate_nat, length_toList]

theorem replicate_eq_copies (n : Nat) (b : Bytes) : replicate n b = copies n b := by
  induction n with
  | zero => rfl
  | succ n ih =>
    have hsucc : replicate (n + 1) b = replicate n b ++ b := rfl
    apply eq_of_toList
    rw [hsucc, ih, toList_append, copies, copies, toList_ofList, toList_ofList,
      List.replicate_succ', List.flatten_append, List.flatten_singleton]

theorem copies_empty (n : Nat) : copies n .empty = .empty := by
  apply ByteArray.size_eq_zero_iff.mp
  rw [size_copies]
  rfl

end Bytes

namespace Machine

open Bytes (copies)

variable {n : Int64}

theorem toNatClampNeg_eq (h : 0 ≤ n) : (n.toNatClampNeg : Int) = n.toInt := by
  have hpos : 0 ≤ n.toInt := Int64.le_iff_toInt_le.mp h
  rw [Int64.toNatClampNeg, Int.toNat_of_nonneg hpos]

theorem product_le_iff (h : 0 ≤ n) (size : Nat) :
    n.toInt * size ≤ maxAllocation ↔ n.toNatClampNeg * size ≤ maxAllocation := by
  rw [← toNatClampNeg_eq h, ← Int.natCast_mul, Int.ofNat_le]

/-- A string is repeated just when the result is not too long. The quotient is rounded down, and yet
this is exact: a count is greater than the quotient just when its product with the size is greater
than the limit. -/
theorem repetition_eq (h : 0 ≤ n) (text : Bytes) :
    repetition n text =
      if n.toInt * text.size ≤ maxAllocation then .ok (.string (copies n.toNatClampNeg text))
      else .error (.longRepetition text.size n) := by
  rw [repetition, if_neg (Int64.not_lt.mpr h)]
  by_cases hempty : text.isEmpty
  · obtain rfl := Bytes.eq_empty_of_isEmpty hempty
    rw [if_pos hempty, Bytes.copies_empty, if_pos ((product_le_iff h _).mpr (Nat.zero_le _))]
  · have hpos : 0 < text.size := by
      rw [ByteArray.isEmpty, beq_iff_eq] at hempty
      exact Nat.pos_of_ne_zero hempty
    have hlimit : maxAllocation / text.size < n.toNatClampNeg ↔
        ¬ n.toInt * text.size ≤ maxAllocation := by
      rw [product_le_iff h, Nat.not_le, Nat.div_lt_iff_lt_mul hpos]
    rw [if_neg hempty, Bytes.replicate_eq_copies]
    by_cases hlong : maxAllocation / text.size < n.toNatClampNeg
    · rw [if_pos hlong, if_neg (hlimit.mp hlong)]
    · rw [if_neg hlong, if_pos (Classical.not_not.mp (mt hlimit.mpr hlong))]

section Words

theorem toInt_quotient (size : Nat) :
    (Int64.ofNat (maxAllocation / size)).toInt = (maxAllocation / size : Nat) := by
  apply Int64.toInt_ofNat_of_lt
  calc maxAllocation / size
    _ ≤ maxAllocation := Nat.div_le_self _ _
    _ < 9223372036854775808 := by decide

theorem toInt_product {size : Nat} (h : 0 ≤ n) (hsize : n.toInt * size ≤ maxAllocation) :
    (n * Int64.ofNat size).toInt = n.toInt * size := by
  have hproduct : n * Int64.ofNat size = Int64.ofNat (n.toNatClampNeg * size) := by
    rw [Int64.ofNat_mul, Int64.ofNat_toNatClampNeg n h]
  have hword : n.toNatClampNeg * size < 9223372036854775808 :=
    Nat.lt_of_le_of_lt ((product_le_iff h size).mp hsize) (by decide)
  rw [hproduct, Int64.toInt_ofNat_of_lt hword, Int.natCast_mul, toNatClampNeg_eq h]

end Words

/-- Repetition respects the limit on the size of its result exactly, in either order of operands. A
negative count is refused; otherwise the string is repeated if the result has at most 16777216
bytes, and is refused if it would have more. What is computed on the way fits in 64 bits: the
quotient that the count is compared with, the size of a result that is made, and the sizes of its
beginnings. -/
theorem binary_repetition (n : Int64) (text : Bytes) :
    binary .mul (.string text) (.int n) = binary .mul (.int n) (.string text) ∧
    binary .mul (.int n) (.string text) =
      (if n < 0 then .error (.negativeRepetition n)
      else if n.toInt * text.size ≤ 16777216 then .ok (.string (copies n.toNatClampNeg text))
      else .error (.longRepetition text.size n)) ∧
    (Fault.negativeRepetition n).kind? = some .argumentType ∧
    (Fault.longRepetition text.size n).kind? = some .tooLarge ∧
    (0 ≤ n →
      (copies n.toNatClampNeg text).size = n.toInt * text.size ∧
      (Int64.ofNat (maxAllocation / text.size) < n ↔
        maxAllocation / text.size < n.toNatClampNeg) ∧
      (n.toInt * text.size ≤ 16777216 →
        (n * Int64.ofNat text.size).toInt = n.toInt * text.size ∧
        ∀ k ≤ n.toNatClampNeg, (Bytes.replicate k text).size ≤ 16777216)) := by
  have hmul : binary .mul (.int n) (.string text) = repetition n text := rfl
  refine ⟨rfl, ?_, rfl, rfl, fun h => ⟨?_, ?_, fun hsize => ⟨toInt_product h hsize, ?_⟩⟩⟩
  · by_cases hneg : n < 0
    · rw [hmul, repetition, if_pos hneg, if_pos hneg]
    · rw [hmul, repetition_eq (Int64.not_lt.mp hneg), if_neg hneg]
      rfl
  · rw [Bytes.size_copies, Int.natCast_mul, toNatClampNeg_eq h]
  · rw [Int64.lt_iff_toInt_lt, toInt_quotient, ← toNatClampNeg_eq h, Int.ofNat_lt]
  · intro k hk
    calc (Bytes.replicate k text).size
      _ = k * text.size := by rw [Bytes.replicate_eq_copies, Bytes.size_copies]
      _ ≤ n.toNatClampNeg * text.size := Nat.mul_le_mul_right _ hk
      _ ≤ 16777216 := (product_le_iff h _).mp hsize

/-- Three bytes can be repeated 5592405 times and not once more. -/
theorem binary_repetition_limit :
    (∃ t, binary .mul (.string "abc") (.int 5592405) = .ok (.string t) ∧ t.size = 16777215) ∧
    ∃ f, binary .mul (.int 5592406) (.string "abc") = .error f ∧ f.kind? = some .tooLarge := by
  constructor
  · obtain ⟨hswap, hresult, -, -, hsizes⟩ := binary_repetition 5592405 "abc"
    rw [if_neg (by decide), if_pos (by decide)] at hresult
    refine ⟨_, hswap.trans hresult, ?_⟩
    exact Int.ofNat_inj.mp ((hsizes (by decide)).1.trans (by decide))
  · obtain ⟨-, hresult, -, hkind, -⟩ := binary_repetition 5592406 "abc"
    rw [if_neg (by decide), if_neg (by decide)] at hresult
    exact ⟨_, hresult, hkind⟩

end Machine

end Kotoba
