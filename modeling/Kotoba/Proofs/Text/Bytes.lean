import Kotoba.Text.Bytes

/-! Byte strings as lists of bytes, their parts, and where a byte stands first. -/
namespace Kotoba.Bytes

@[simp] theorem toList_append (a b : Bytes) : toList (a ++ b) = a.toList ++ b.toList := by
  simp [toList, ByteArray.data_append]

@[simp] theorem toList_take (b : Bytes) (n : Nat) : (b.take n).toList = b.toList.take n := by
  simp [take, toList, ByteArray.data_extract, List.extract_eq_take_drop]

@[simp] theorem toList_drop (b : Bytes) (n : Nat) : (b.drop n).toList = b.toList.drop n := by
  rw [drop, toList, ByteArray.data_extract, Array.toList_extract, List.extract_eq_take_drop]
  exact List.take_of_length_le (by rw [List.length_drop]; exact Nat.le_refl _)

@[simp] theorem length_toList (b : Bytes) : b.toList.length = b.size := rfl

@[simp] theorem toList_ofList (bs : List UInt8) : (ofList bs).toList = bs := rfl

@[simp] theorem ofList_toList (b : Bytes) : ofList b.toList = b := rfl

theorem isEmpty_eq_false {b : Bytes} (h : b.toList ≠ []) : b.isEmpty = false := by
  rw [ByteArray.isEmpty, beq_eq_false_iff_ne]
  exact fun hsize => h (List.eq_nil_of_length_eq_zero hsize)

theorem eq_empty {b : Bytes} (h : b.toList = []) : b = .empty := by
  rw [← ofList_toList b, h]
  rfl

theorem size_take (b : Bytes) (n : Nat) : (b.take n).size = min n b.size := by
  rw [← length_toList, toList_take, List.length_take, length_toList]

theorem take_size (b : Bytes) : b.take b.size = b := ByteArray.extract_zero_size

theorem drop_zero (b : Bytes) : b.drop 0 = b := ByteArray.extract_zero_size

theorem drop_of_size_le {b : Bytes} {n : Nat} (h : b.size ≤ n) : b.drop n = .empty := by
  apply eq_empty
  rw [toList_drop]
  exact List.drop_eq_nil_of_le h

theorem eq_of_toList {a b : Bytes} (h : a.toList = b.toList) : a = b := by
  rw [← ofList_toList a, h, ofList_toList]

theorem take_append_drop (b : Bytes) (n : Nat) : b.take n ++ b.drop n = b := by
  apply eq_of_toList
  rw [toList_append, toList_take, toList_drop, List.take_append_drop]

/-- Where two byte strings are parted differently, the longer beginning starts with the other. -/
theorem append_eq_append {a b c d : Bytes} (h : a ++ b = c ++ d) (hle : c.size ≤ a.size) :
    ∃ m, a = c ++ m ∧ d = m ++ b := by
  have hlists := congrArg toList h
  rw [toList_append, toList_append] at hlists
  have hshort : c.toList <+: a.toList ++ b.toList := ⟨d.toList, hlists.symm⟩
  have hlong : a.toList <+: a.toList ++ b.toList := ⟨b.toList, rfl⟩
  obtain ⟨m, hm⟩ := List.prefix_of_prefix_length_le hshort hlong hle
  refine ⟨ofList m, eq_of_toList ?_, eq_of_toList ?_⟩
  · rw [toList_append, toList_ofList, hm]
  · rw [← hm, List.append_assoc, List.append_right_inj] at hlists
    rw [toList_append, toList_ofList, hlists]

theorem drop_drop (b : Bytes) (i j : Nat) : (b.drop i).drop j = b.drop (i + j) := by
  apply eq_of_toList
  simp only [toList_drop, List.drop_drop]

theorem extract_add (b : Bytes) (i n : Nat) : b.extract i (i + n) = (b.drop i).take n := by
  apply eq_of_toList
  rw [toList_take, toList_drop, toList, ByteArray.data_extract, Array.toList_extract,
    List.extract_eq_take_drop, Nat.add_sub_cancel_left]
  rfl

/-- What follows the first bytes, however many of them there are. -/
theorem drop_size_take (b : Bytes) (n : Nat) : b.drop (b.take n).size = b.drop n := by
  rw [size_take]
  rcases Nat.le_total n b.size with h | h
  · rw [Nat.min_eq_left h]
  · rw [Nat.min_eq_right h, drop_of_size_le h, drop_of_size_le (Nat.le_refl _)]

theorem eq_empty_of_isEmpty {b : Bytes} (h : b.isEmpty = true) : b = .empty := by
  rw [ByteArray.isEmpty, beq_iff_eq] at h
  exact ByteArray.size_eq_zero_iff.mp h

theorem exists_append_of_getLast? {b : Bytes} {x : UInt8} (h : b.toList.getLast? = some x) :
    ∃ front, b = front ++ ofList [x] := by
  obtain ⟨front, hfront⟩ := List.getLast?_eq_some_iff.mp h
  exact ⟨ofList front, eq_of_toList (by rw [hfront, toList_append]; rfl)⟩

theorem dropLastIf_of_ne {b : Bytes} {x : UInt8} (h : b.toList.getLast? ≠ some x) :
    b.dropLastIf x = b := by
  have hback : b.toList.getLast? = b.data.back? := by rw [toList, Array.getLast?_toList]
  rw [hback] at h
  exact if_neg fun hlast => h hlast.2

@[simp] theorem dropLastIf_append (b : Bytes) (x : UInt8) : (b ++ ofList [x]).dropLastIf x = b := by
  have hsize : (b ++ ofList [x]).size = b.size + 1 := ByteArray.size_append
  have hlast : (b ++ ofList [x]).data.back? = some x := by
    rw [← Array.getLast?_toList]
    show (b ++ ofList [x]).toList.getLast? = some x
    rw [toList_append, toList_ofList, List.getLast?_concat]
  rw [dropLastIf, if_pos ⟨by omega, hlast⟩, hsize]
  apply eq_of_toList
  rw [toList_take, toList_append, Nat.add_sub_cancel, ← length_toList, List.take_left]

private theorem indexFrom_eq (b : Bytes) (x : UInt8) (fuel i : Nat) (h : b.size ≤ fuel + i) :
    b.indexFrom x fuel i = ((b.toList.drop i).findIdx? (· == x)).map (· + i) := by
  induction fuel generalizing i with
  | zero =>
    rw [List.drop_eq_nil_of_le (by simpa [toList] using h)]
    rfl
  | succ fuel ih =>
    rw [indexFrom]
    by_cases hi : i < b.size
    · have hdrop : b.toList.drop i = b[i] :: b.toList.drop (i + 1) :=
        List.drop_eq_getElem_cons (l := b.toList) hi
      rw [dif_pos hi, hdrop, List.findIdx?_cons]
      by_cases hx : b[i] = x
      · rw [if_pos hx, beq_iff_eq.mpr hx, if_pos rfl, Option.map_some, Nat.zero_add]
      · rw [if_neg hx, beq_eq_false_iff_ne.mpr hx, ih (i + 1) (by omega),
          if_neg Bool.false_ne_true, Option.map_map]
        congr 1
        funext n
        rw [Function.comp_apply]
        omega
    · have hdrop : b.toList.drop i = [] := List.drop_eq_nil_of_le (Nat.le_of_not_lt hi)
      rw [dif_neg hi, hdrop]
      rfl

/-- The first `x` stands after bytes that are all different from it. -/
theorem indexOf?_cases (b : Bytes) (x : UInt8) :
    (∃ line rest, x ∉ line ∧ b.toList = line ++ x :: rest ∧ b.indexOf? x 0 = some line.length) ∨
      x ∉ b.toList ∧ b.indexOf? x 0 = none := by
  have hindex : b.indexOf? x 0 = b.toList.findIdx? (· == x) := by
    rw [indexOf?, indexFrom_eq b x _ 0 (by omega)]
    simp
  rw [hindex]
  cases hfind : b.toList.findIdx? (· == x) with
  | none =>
    rw [List.findIdx?_eq_none_iff] at hfind
    exact .inr ⟨fun hmem => by simpa using hfind x hmem, rfl⟩
  | some n =>
    obtain ⟨hn, hx, hbefore⟩ := List.findIdx?_eq_some_iff_getElem.mp hfind
    refine .inl ⟨b.toList.take n, b.toList.drop (n + 1), ?_, ?_, ?_⟩
    · intro hmem
      obtain ⟨j, hj, hjx⟩ := List.mem_take_iff_getElem.mp hmem
      exact hbefore j (by omega) (by simpa using hjx)
    · rw [← eq_of_beq hx, List.getElem_cons_drop, List.take_append_drop]
    · rw [List.length_take_of_le (Nat.le_of_lt hn)]

theorem join_cons (sep first : Bytes) {parts : List Bytes} (h : parts ≠ []) :
    join sep (first :: parts) = first ++ sep ++ join sep parts := by
  have hfold : ∀ (parts : List Bytes) (a b : Bytes),
      parts.foldl (fun acc part => acc ++ sep ++ part) (a ++ b) =
        a ++ parts.foldl (fun acc part => acc ++ sep ++ part) b := by
    intro parts
    induction parts with
    | nil => exact fun _ _ => rfl
    | cons p parts ih =>
      intro a b
      rw [List.foldl_cons, List.foldl_cons, ByteArray.append_assoc, ByteArray.append_assoc, ih,
        ByteArray.append_assoc]
  cases parts with
  | nil => exact absurd rfl h
  | cons p parts => rw [join, join, List.foldl_cons, hfold]

end Kotoba.Bytes
