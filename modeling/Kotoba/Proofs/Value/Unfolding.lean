import Kotoba.Proofs.Scope.Content
import Kotoba.Proofs.Value.Show

/-! What the tagged text of a value tells. A value of scalars and arrays is unfolded into a tree in
which an array inside itself is only referred to. The text tells the tree, and the tree tells what
is found on any way through the arrays. -/
namespace Kotoba

namespace Value

/-- Whether a value is a scalar or an array. -/
def isDatum (v : Value) : Bool :=
  match v with
  | .array _ => true
  | v => v.isScalar

/-- If all elements in a store are data, nothing else is found in data. -/
theorem isDatum_of_reaches {s : Store} {v w : Value}
    (hs : ∀ elements ∈ s.arrays, ∀ u ∈ elements, u.isDatum) (hv : v.isDatum)
    (h : s.Reaches v w) : w.isDatum := by
  cases h with
  | self => exact hv
  | @element index _ _ hw =>
    unfold Store.elements at hw
    cases helements : s.arrays[index]? with
    | none => simp [helements] at hw
    | some elements =>
      exact hs elements (Array.mem_of_getElem? helements) w (by simpa [helements] using hw)

theorem scalar_or_array {v : Value} (h : v.isDatum) : v.isScalar ∨ ∃ index, v = .array index := by
  cases v with
  | array index => exact .inr ⟨index, rfl⟩
  | _ => exact .inl h

/-- A value with its arrays written out, but for those that it is inside of. -/
inductive Unfolding where
  | scalar (v : Value) (h : v.isScalar)
  /-- An enclosing array, by its place counted from the outermost. -/
  | back (place : Nat)
  | array (elements : List Unfolding)

namespace Unfolding

mutual

def text : Unfolding → List Char
  | scalar v _ => v.tag.toList
  | back place => "cycle:".toList ++ (toString place).toList
  | array elements => "array:[".toList ++ textAll elements

/-- The elements of an array, and its end. -/
def textAll : List Unfolding → List Char
  | [] => [']']
  | first :: rest => first.text ++ textMore rest

/-- The elements of an array after the first, and its end. -/
def textMore : List Unfolding → List Char
  | [] => [']']
  | next :: rest => ',' :: (next.text ++ textMore rest)

end

@[simp] theorem text_scalar {v : Value} (hv : v.isScalar) : (scalar v hv).text = v.tag.toList := rfl

@[simp] theorem text_back (place : Nat) :
    (back place).text = "cycle:".toList ++ (toString place).toList := rfl

@[simp] theorem text_array (elements : List Unfolding) :
    (array elements).text = "array:[".toList ++ textAll elements := rfl

theorem endsNumeral_textMore (us : List Unfolding) (x : List Char) :
    Text.EndsNumeral (textMore us ++ x) := by
  cases us <;> exact Text.endsNumeral_cons rfl

/-- The first character of the text. -/
def head : Unfolding → Char
  | scalar (.int _) _ => 'i'
  | scalar (.string _) _ => 's'
  | scalar (.bool _) _ => 'b'
  | scalar _ _ => 'n'
  | back _ => 'c'
  | array _ => 'a'

theorem head_text (u : Unfolding) (x : List Char) : (u.text ++ x).head? = some u.head := by
  cases u with
  | scalar v hv =>
    cases v with
    | null => rfl
    | int n | string n | bool n =>
      rw [text_scalar, tag, String.toList_append, List.append_assoc]
      rfl
    | _ => cases hv
  | back place =>
    rw [text_back, List.append_assoc]
    rfl
  | array elements =>
    rw [text_array, List.append_assoc]
    rfl

theorem head_eq {t u : Unfolding} {x y : List Char} (h : t.text ++ x = u.text ++ y) :
    t.head = u.head := by
  have hhead := head_text t x
  rw [h, head_text] at hhead
  exact (Option.some.inj hhead).symm

theorem head_scalar_ne {v : Value} (hv : v.isScalar) :
    (scalar v hv).head ≠ 'a' ∧ (scalar v hv).head ≠ 'c' := by
  cases v <;> simp [head]

/-- No element begins as an array ends. -/
theorem text_append_ne (u : Unfolding) (x y : List Char) : u.text ++ x ≠ ']' :: y := by
  intro h
  have hhead := head_text u x
  rw [h] at hhead
  cases u with
  | scalar v hv => cases v <;> simp [head] at hhead
  | back place => simp [head] at hhead
  | array elements => simp [head] at hhead

mutual

/-- An unfolding is told by its text, whatever follows that does not go on with a number. -/
theorem text_cancel : ∀ (t u : Unfolding) {x y : List Char}, Text.EndsNumeral x →
    Text.EndsNumeral y → t.text ++ x = u.text ++ y → t = u ∧ x = y
  | scalar v hv, u, x, y, hx, hy, h => by
    have hhead := head_eq h
    cases u with
    | scalar w hw =>
      obtain ⟨rfl, rfl⟩ := tag_cancel hv hw hx hy h
      exact ⟨rfl, rfl⟩
    | back place => exact absurd hhead (head_scalar_ne hv).2
    | array us => exact absurd hhead (head_scalar_ne hv).1
  | back place, u, x, y, hx, hy, h => by
    have hhead := head_eq h
    cases u with
    | scalar w hw => exact absurd hhead.symm (head_scalar_ne hw).2
    | back other =>
      rw [text_back, text_back, List.append_assoc, List.append_assoc] at h
      obtain ⟨rfl, hxy⟩ := Text.toString_nat_cancel hx hy (List.append_cancel_left h)
      exact ⟨rfl, hxy⟩
    | array us => cases hhead
  | array ts, u, x, y, hx, hy, h => by
    have hhead := head_eq h
    cases u with
    | scalar w hw => exact absurd hhead.symm (head_scalar_ne hw).1
    | back place => cases hhead
    | array us =>
      rw [text_array, text_array, List.append_assoc, List.append_assoc] at h
      obtain ⟨rfl, hxy⟩ := textAll_cancel ts us (List.append_cancel_left h)
      exact ⟨rfl, hxy⟩

theorem textAll_cancel : ∀ (ts us : List Unfolding) {x y : List Char},
    textAll ts ++ x = textAll us ++ y → ts = us ∧ x = y
  | [], us, x, y, h => by
    cases us with
    | nil => exact ⟨rfl, (List.cons.inj h).2⟩
    | cons u us =>
      simp only [textAll, List.append_assoc] at h
      exact absurd h.symm (text_append_ne u _ _)
  | t :: ts, us, x, y, h => by
    cases us with
    | nil =>
      simp only [textAll, List.append_assoc] at h
      exact absurd h (text_append_ne t _ _)
    | cons u us =>
      simp only [textAll, List.append_assoc] at h
      obtain ⟨rfl, hmore⟩ :=
        text_cancel t u (endsNumeral_textMore ts x) (endsNumeral_textMore us y) h
      obtain ⟨rfl, hxy⟩ := textMore_cancel ts us hmore
      exact ⟨rfl, hxy⟩

theorem textMore_cancel : ∀ (ts us : List Unfolding) {x y : List Char},
    textMore ts ++ x = textMore us ++ y → ts = us ∧ x = y
  | [], us, x, y, h => by
    cases us with
    | nil => exact ⟨rfl, (List.cons.inj h).2⟩
    | cons u us => simp [textMore] at h
  | t :: ts, us, x, y, h => by
    cases us with
    | nil => simp [textMore] at h
    | cons u us =>
      simp only [textMore, List.cons_append, List.append_assoc, List.cons.injEq, true_and] at h
      obtain ⟨rfl, hmore⟩ :=
        text_cancel t u (endsNumeral_textMore ts x) (endsNumeral_textMore us y) h
      obtain ⟨rfl, hxy⟩ := textMore_cancel ts us hmore
      exact ⟨rfl, hxy⟩

end

end Unfolding

end Value

namespace Store

open Value (Unfolding)

/-- A value inside the arrays `enclosing` unfolded, with up to `depth` levels of arrays. What is no
datum is taken for null. -/
def unfoldWithin (s : Store) : (depth : Nat) → (enclosing : List Nat) → Value → Unfolding
  | depth + 1, enclosing, .array index =>
    match enclosing.idxOf? index with
    | some place => .back place
    | none => .array ((s.elements index).toList.map (unfoldWithin s depth (enclosing ++ [index])))
  | _, _, v => if h : v.isScalar then .scalar v h else .scalar .null rfl

/-- A value inside the arrays `enclosing` unfolded. No more arrays than the store has can be nested
without repeating one. -/
def unfold (s : Store) (enclosing : List Nat) (v : Value) : Unfolding :=
  s.unfoldWithin (s.arrays.size + 1 - enclosing.length) enclosing v

theorem unfold_array {s : Store} {enclosing : List Nat} (h : enclosing.length ≤ s.arrays.size)
    (index : Nat) : s.unfold enclosing (.array index) =
      match enclosing.idxOf? index with
      | some place => .back place
      | none => .array ((s.elements index).toList.map (s.unfold (enclosing ++ [index]))) := by
  have hdepth : s.arrays.size + 1 - enclosing.length =
      s.arrays.size + 1 - (enclosing ++ [index]).length + 1 := by
    rw [List.length_append, List.length_singleton]
    omega
  rw [unfold, hdepth]
  rfl

theorem unfoldWithin_scalar {s : Store} {v : Value} (hv : v.isScalar) (depth : Nat)
    (enclosing : List Nat) : s.unfoldWithin depth enclosing v = .scalar v hv := by
  cases v with
  | null | int | string | bool =>
    rw [unfoldWithin, dif_pos hv]
    rintro _ _ _ ⟨⟩
  | _ => cases hv

theorem unfold_scalar {s : Store} {v : Value} (hv : v.isScalar) (enclosing : List Nat) :
    s.unfold enclosing v = .scalar v hv := unfoldWithin_scalar hv _ _

private theorem foldl_ofTexts (us : List Unfolding) (cs : List Char) :
    (us.map fun u => Bytes.ofString (String.ofList u.text)).foldl
        (fun acc part => acc ++ Bytes.ofString "," ++ part) (Bytes.ofString (String.ofList cs)) ++
      Bytes.ofString "]" = Bytes.ofString (String.ofList (cs ++ Unfolding.textMore us)) := by
  induction us generalizing cs with
  | nil => rw [String.ofList_append, Bytes.ofString_append]; rfl
  | cons u us ih =>
    have happend : Bytes.ofString (String.ofList cs) ++ Bytes.ofString "," ++
        Bytes.ofString (String.ofList u.text) =
        Bytes.ofString (String.ofList (cs ++ ',' :: u.text)) := by
      rw [← List.singleton_append, String.ofList_append, String.ofList_append,
        Bytes.ofString_append, Bytes.ofString_append, ByteArray.append_assoc]
    rw [List.map_cons, List.foldl_cons, happend, ih]
    simp [Unfolding.textMore]

/-- The elements of an array between brackets. -/
theorem brackets_ofTexts (us : List Unfolding) :
    Bytes.ofString "array:[" ++
        Bytes.join "," (us.map fun u => Bytes.ofString (String.ofList u.text)) ++
      Bytes.ofString "]" = Bytes.ofString (String.ofList (Unfolding.array us).text) := by
  rw [Unfolding.text_array, String.ofList_append, Bytes.ofString_append, String.ofList_toList,
    ByteArray.append_assoc]
  congr 1
  cases us with
  | nil => rfl
  | cons u us => exact foldl_ofTexts us u.text

/-- As many levels of arrays are enough as there are arrays that do not enclose the value. -/
theorem serializeWithin_eq {s : Store} {depth : Nat} {enclosing : List Nat} {v : Value}
    (hv : ∀ w, s.Reaches v w → w.isDatum) (hs : Nest s enclosing)
    (hdepth : s.arrays.size < depth + enclosing.length) :
    s.serializeWithin depth enclosing v =
      Bytes.ofString (String.ofList (s.unfoldWithin depth enclosing v).text) := by
  induction depth generalizing enclosing v with
  | zero =>
    have hlength := hs.length_le
    omega
  | succ depth ih =>
    obtain hscalar | ⟨index, rfl⟩ := Value.scalar_or_array (hv v .self)
    · rw [unfoldWithin_scalar hscalar, Unfolding.text_scalar, String.ofList_toList,
        ← Value.serialize_of_isScalar hscalar s]
      cases v with
      | array index => cases hscalar
      | _ => rfl
    · simp only [serializeWithin, unfoldWithin]
      cases hplace : enclosing.idxOf? index with
      | some place =>
        dsimp only
        rw [Unfolding.text_back, String.ofList_append, String.ofList_toList, String.ofList_toList]
        rfl
      | none =>
        have helements : (s.elements index).toList.map
            (serializeWithin s depth (enclosing ++ [index])) =
            ((s.elements index).toList.map (s.unfoldWithin depth (enclosing ++ [index]))).map
              fun u => Bytes.ofString (String.ofList u.text) := by
          rw [List.map_map]
          refine List.map_congr_left fun w hw => ih ?_ ?_ ?_
          · exact fun u hu => hv u (hu.of_element (Array.mem_toList_iff.mp hw))
          · exact hs.snoc (List.idxOf?_eq_none_iff.mp hplace) (Array.mem_toList_iff.mp hw)
          · rw [List.length_append, List.length_singleton]
            omega
        dsimp only
        rw [helements]
        exact brackets_ofTexts _

/-- The tagged text of a value of scalars and arrays is that of its unfolding. -/
theorem serialize_eq {s : Store} {v : Value} (hv : ∀ w, s.Reaches v w → w.isDatum) :
    s.serialize v = Bytes.ofString (String.ofList (s.unfold [] v).text) :=
  serializeWithin_eq hv (.nil s) (Nat.lt_succ_self _)

/-- Whether two values are the same as far as can be seen on a way through at most `depth`
arrays. -/
def Agree (s t : Store) : (depth : Nat) → Value → Value → Prop
  | 0, .array _, .array _ => True
  | depth + 1, .array i, .array j =>
    List.Forall₂ (Agree s t depth) (s.elements i).toList (t.elements j).toList
  | _, v, w => v.isScalar ∧ v = w

/-- Arrays of two stores, each pair inside those before it, that unfold alike. -/
inductive Paired (s t : Store) : List (Nat × Nat) → Prop
  | nil : Paired s t []
  | snoc {pairs : List (Nat × Nat)} {i j : Nat} (h : Paired s t pairs)
    (hs : Nest s (pairs.map (·.1) ++ [i])) (ht : Nest t (pairs.map (·.2) ++ [j]))
    (hsame : s.unfold (pairs.map (·.1)) (.array i) = t.unfold (pairs.map (·.2)) (.array j)) :
    Paired s t (pairs ++ [(i, j)])

section Agreement

variable {s t : Store} {pairs : List (Nat × Nat)} {i j : Nat}

theorem Paired.nest (h : Paired s t pairs) :
    Nest s (pairs.map (·.1)) ∧ Nest t (pairs.map (·.2)) := by
  cases h with
  | nil => exact ⟨.nil s, .nil t⟩
  | snoc h hs ht hsame => exact ⟨by simpa using hs, by simpa using ht⟩

theorem Nest.not_mem {enclosing : List Nat} (h : Nest s (enclosing ++ [i])) : i ∉ enclosing := by
  have hdisjoint := (List.nodup_append.mp h.nodup).2.2
  exact fun hi => hdisjoint i hi i (List.mem_singleton_self i) rfl

/-- Arrays at the same place unfolded alike when they were entered. -/
theorem Paired.outer (h : Paired s t pairs) {place : Nat} (hplace : pairs[place]? = some (i, j)) :
    ∃ outer, Paired s t outer ∧ i ∉ outer.map (·.1) ∧ j ∉ outer.map (·.2) ∧
      s.unfold (outer.map (·.1)) (.array i) = t.unfold (outer.map (·.2)) (.array j) := by
  induction h with
  | nil => cases hplace
  | @snoc pairs k l h hs ht hsame ih =>
    by_cases hin : place < pairs.length
    · rw [List.getElem?_append_left hin] at hplace
      exact ih hplace
    · have hlast : place = pairs.length := by
        have := (List.getElem?_eq_some_iff.mp hplace).1
        simp at this
        omega
      subst hlast
      simp at hplace
      obtain ⟨rfl, rfl⟩ := hplace
      exact ⟨pairs, h, hs.not_mem, ht.not_mem, hsame⟩

/-- Arrays that are entered together and unfold alike have elements that unfold alike. -/
theorem Paired.elements (h : Paired s t pairs) (hi : i ∉ pairs.map (·.1))
    (hj : j ∉ pairs.map (·.2))
    (hsame : s.unfold (pairs.map (·.1)) (.array i) = t.unfold (pairs.map (·.2)) (.array j)) :
    List.Forall₂ (fun v w => v ∈ s.elements i ∧ w ∈ t.elements j ∧ Paired s t (pairs ++ [(i, j)]) ∧
      s.unfold (pairs.map (·.1) ++ [i]) v = t.unfold (pairs.map (·.2) ++ [j]) w)
      (s.elements i).toList (t.elements j).toList := by
  have hunfolded := hsame
  rw [unfold_array h.nest.1.length_le, unfold_array h.nest.2.length_le,
    List.idxOf?_eq_none_iff.mpr hi, List.idxOf?_eq_none_iff.mpr hj] at hunfolded
  have helements := List.forall₂_eq_eq_eq.symm ▸ (Unfolding.array.inj hunfolded)
  rw [List.forall₂_map_left_iff, List.forall₂_map_right_iff, List.forall₂_iff_zip] at helements
  refine List.forall₂_iff_zip.mpr ⟨helements.1, fun {v w} hvw => ?_⟩
  obtain ⟨hv, hw⟩ := List.of_mem_zip hvw
  rw [Array.mem_toList_iff] at hv hw
  exact ⟨hv, hw, .snoc h (h.nest.1.snoc hi hv) (h.nest.2.snoc hj hw) hsame, helements.2 hvw⟩

/-- Arrays that unfold alike did so when they were entered, or are entered only now. -/
theorem Paired.entered (h : Paired s t pairs)
    (hsame : s.unfold (pairs.map (·.1)) (.array i) = t.unfold (pairs.map (·.2)) (.array j)) :
    ∃ outer, Paired s t outer ∧ i ∉ outer.map (·.1) ∧ j ∉ outer.map (·.2) ∧
      s.unfold (outer.map (·.1)) (.array i) = t.unfold (outer.map (·.2)) (.array j) := by
  have hunfolded := hsame
  rw [unfold_array h.nest.1.length_le, unfold_array h.nest.2.length_le] at hunfolded
  cases hi : (pairs.map (·.1)).idxOf? i with
  | none =>
    cases hj : (pairs.map (·.2)).idxOf? j with
    | none => exact ⟨pairs, h, List.idxOf?_eq_none_iff.mp hi, List.idxOf?_eq_none_iff.mp hj, hsame⟩
    | some place => simp [hi, hj] at hunfolded
  | some place =>
    cases hj : (pairs.map (·.2)).idxOf? j with
    | none => simp [hi, hj] at hunfolded
    | some place' =>
      obtain rfl : place = place' := by simpa [hi, hj] using hunfolded
      obtain ⟨hlt, hi, -⟩ := List.idxOf?_eq_some_iff.mp hi
      obtain ⟨_, hj, -⟩ := List.idxOf?_eq_some_iff.mp hj
      rw [List.length_map] at hlt
      simp only [List.getElem_map] at hi hj
      have hplace : pairs[place]? = some (i, j) := by
        rw [List.getElem?_eq_getElem hlt, ← hi, ← hj]
      exact h.outer hplace

theorem unfold_array_ne {enclosing : List Nat} (hs : Nest s enclosing) {v : Value}
    (hv : v.isScalar) : s.unfold enclosing (.array i) ≠ .scalar v hv := by
  rw [unfold_array hs.length_le]
  cases enclosing.idxOf? i <;> simp

/-- Values that unfold alike are the same scalar, or two arrays. -/
theorem Paired.scalar_or_arrays {v w : Value} (h : Paired s t pairs) (hv : v.isDatum)
    (hw : w.isDatum) (hsame : s.unfold (pairs.map (·.1)) v = t.unfold (pairs.map (·.2)) w) :
    v.isScalar ∧ v = w ∨ ∃ i j, v = .array i ∧ w = .array j := by
  obtain hscalar | ⟨i, rfl⟩ := Value.scalar_or_array hv
  · rw [unfold_scalar hscalar] at hsame
    obtain hscalar' | ⟨j, rfl⟩ := Value.scalar_or_array hw
    · rw [unfold_scalar hscalar'] at hsame
      exact .inl ⟨hscalar, Unfolding.scalar.inj hsame⟩
    · exact absurd hsame.symm (unfold_array_ne h.nest.2 hscalar)
  · obtain hscalar' | ⟨j, rfl⟩ := Value.scalar_or_array hw
    · rw [unfold_scalar hscalar'] at hsame
      exact absurd hsame (unfold_array_ne h.nest.1 hscalar')
    · exact .inr ⟨i, j, rfl, rfl⟩

theorem agree_scalar {v : Value} (hv : v.isScalar) (depth : Nat) : Agree s t depth v v := by
  cases v with
  | null | int | string | bool => cases depth <;> exact ⟨hv, rfl⟩
  | _ => cases hv

/-- Values that unfold alike agree. An array inside itself unfolds as it did when it was entered,
so the induction is on how far is looked. -/
theorem agree_of_unfold (depth : Nat) {v w : Value} (h : Paired s t pairs)
    (hv : ∀ u, s.Reaches v u → u.isDatum) (hw : ∀ u, t.Reaches w u → u.isDatum)
    (hsame : s.unfold (pairs.map (·.1)) v = t.unfold (pairs.map (·.2)) w) :
    Agree s t depth v w := by
  induction depth generalizing pairs v w with
  | zero =>
    obtain ⟨hscalar, rfl⟩ | ⟨i, j, rfl, rfl⟩ :=
      h.scalar_or_arrays (hv v .self) (hw w .self) hsame
    · exact agree_scalar hscalar 0
    · trivial
  | succ depth ih =>
    obtain ⟨hscalar, rfl⟩ | ⟨i, j, rfl, rfl⟩ :=
      h.scalar_or_arrays (hv v .self) (hw w .self) hsame
    · exact agree_scalar hscalar _
    · obtain ⟨outer, houter, hi, hj, hentered⟩ := h.entered hsame
      refine (houter.elements hi hj hentered).imp fun v w ⟨hv', hw', hinner, hsame⟩ => ?_
      apply ih hinner
      · exact fun u hu => hv u (hu.of_element hv')
      · exact fun u hu => hw u (hu.of_element hw')
      · simpa using hsame

/-- Values that agree are of the same kind, even if nothing else of them is looked at. -/
theorem Agree.kind_eq {depth : Nat} {v w : Value} (h : Agree s t depth v w) : v.kind = w.kind := by
  unfold Agree at h
  split at h
  · rfl
  · rfl
  · rw [h.2]

/-- The tagged text of a value of scalars and arrays tells it as far as one looks, whatever
follows the text that does not go on with a number. -/
theorem agree_of_text {v w : Value} (hv : ∀ u, s.Reaches v u → u.isDatum)
    (hw : ∀ u, t.Reaches w u → u.isDatum) {x y : List Char} (hx : Text.EndsNumeral x)
    (hy : Text.EndsNumeral y) (h : (s.unfold [] v).text ++ x = (t.unfold [] w).text ++ y) :
    (∀ depth, Agree s t depth v w) ∧ x = y := by
  obtain ⟨hsame, hxy⟩ := Unfolding.text_cancel _ _ hx hy h
  exact ⟨fun depth => agree_of_unfold depth .nil hv hw hsame, hxy⟩

end Agreement

end Store

end Kotoba
