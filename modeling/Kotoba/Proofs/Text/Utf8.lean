import Kotoba.Text.Utf8

/-! The pieces of a byte string, one after the other. -/
namespace Kotoba.Bytes
open Kotoba.Text

theorem ofString_append (s t : String) : ofString (s ++ t) = ofString s ++ ofString t :=
  String.toByteArray_append

theorem ofString_injective {s t : String} (h : ofString s = ofString t) : s = t :=
  String.toByteArray_inj.mp h

/-- The pieces of `b` from offset `i` on, at most `fuel` of them. -/
def piecesFrom (b : Bytes) : (fuel i : Nat) → List Piece
  | 0, _ => []
  | fuel + 1, i =>
    if h : i < b.size then b.pieceAt i h :: piecesFrom b fuel (i + (b.pieceAt i h).width) else []

theorem foldFrom_eq_foldl {α : Type} (b : Bytes) (f : α → Piece → α) (fuel i : Nat) (acc : α) :
    b.foldFrom f fuel i acc = (b.piecesFrom fuel i).foldl f acc := by
  induction fuel generalizing i acc with
  | zero => rfl
  | succ fuel ih =>
    simp only [foldFrom, piecesFrom]
    split
    · rw [List.foldl_cons, ih]
    · rfl

private theorem foldl_cons_eq_reverse {α β : Type} (f : α → β) (as : List α) (bs : List β) :
    as.foldl (fun acc a => f a :: acc) bs = (as.map f).reverse ++ bs := by
  induction as generalizing bs with
  | nil => rfl
  | cons a as ih => simp [ih]

theorem pieces_eq_piecesFrom (b : Bytes) : b.pieces = b.piecesFrom b.size 0 := by
  rw [pieces, foldPieces, foldFrom_eq_foldl]
  have h := foldl_cons_eq_reverse id (b.piecesFrom b.size 0) []
  simp only [id_eq, List.map_id_fun, List.append_nil] at h
  rw [h, List.reverse_reverse]

theorem foldPieces_eq_foldl {α : Type} (b : Bytes) (f : α → Piece → α) (start : α) :
    b.foldPieces f start = b.pieces.foldl f start := by
  rw [pieces_eq_piecesFrom, foldPieces, foldFrom_eq_foldl]

theorem chars_eq_map (b : Bytes) : b.chars = b.pieces.map Piece.shown := by
  rw [chars, foldPieces_eq_foldl, foldl_cons_eq_reverse, List.append_nil, List.reverse_reverse]

theorem length_eq_length_chars (b : Bytes) : b.length = b.chars.length := by
  have hfold : ∀ (ps : List Piece) (n : Nat), ps.foldl (fun n _ => n + 1) n = n + ps.length := by
    intro ps
    induction ps with
    | nil => exact fun _ => rfl
    | cons p ps ih =>
      intro n
      rw [List.foldl_cons, ih, List.length_cons]
      omega
  rw [length, foldPieces_eq_foldl, hfold, chars_eq_map, List.length_map, Nat.zero_add]

theorem width_pos (p : Piece) : 0 < p.width := by
  cases p with
  | char c => exact c.utf8Size_pos
  | stray x => exact Nat.one_pos

/-- More fuel than there are bytes left makes no difference. -/
private theorem piecesFrom_of_le (b : Bytes) {fuel fuel' i : Nat} (h : b.size - i ≤ fuel)
    (h' : b.size - i ≤ fuel') : b.piecesFrom fuel i = b.piecesFrom fuel' i := by
  induction fuel generalizing fuel' i with
  | zero =>
    have hi : ¬ i < b.size := by omega
    cases fuel' with
    | zero => rfl
    | succ fuel' => simp [piecesFrom, hi]
  | succ fuel ih =>
    by_cases hi : i < b.size
    · cases fuel' with
      | zero => omega
      | succ fuel' =>
        have hw := width_pos (b.pieceAt i hi)
        simp only [piecesFrom, hi, dif_pos]
        rw [ih (by omega : _ ≤ fuel) (by omega : _ ≤ fuel')]
    · cases fuel' <;> simp [piecesFrom, hi]

theorem size_drop (b : Bytes) (k : Nat) : (b.drop k).size = b.size - k := by
  simp [drop, ByteArray.size_extract]

private theorem pieceAt_drop (b : Bytes) {k i : Nat} (h : i < (b.drop k).size)
    (h' : k + i < b.size) : (b.drop k).pieceAt i h = b.pieceAt (k + i) h' := by
  have hdecode : (b.drop k).utf8DecodeChar? i = b.utf8DecodeChar? (k + i) := by
    rw [ByteArray.utf8DecodeChar?_eq_utf8DecodeChar?_extract,
      ByteArray.utf8DecodeChar?_eq_utf8DecodeChar?_extract (b := b), drop,
      ByteArray.extract_extract, ByteArray.size_extract]
    congr 2
    omega
  have hbyte : (b.drop k)[i] = b[k + i] := by
    simp only [drop, ByteArray.getElem_extract]
  simp only [pieceAt, hdecode, hbyte]

private theorem piecesFrom_drop (b : Bytes) (fuel k i : Nat) :
    (b.drop k).piecesFrom fuel i = b.piecesFrom fuel (k + i) := by
  induction fuel generalizing i with
  | zero => rfl
  | succ fuel ih =>
    have hsize := size_drop b k
    simp only [piecesFrom]
    by_cases h : k + i < b.size
    · have hi : i < (b.drop k).size := by omega
      rw [dif_pos hi, dif_pos h, pieceAt_drop b hi h, ih, Nat.add_assoc]
    · rw [dif_neg (by omega), dif_neg h]

/-- The first piece, and then the pieces of what follows it. -/
theorem pieces_of_pos {b : Bytes} (h : 0 < b.size) :
    b.pieces = b.pieceAt 0 h :: (b.drop (b.pieceAt 0 h).width).pieces := by
  obtain ⟨n, hn⟩ := Nat.exists_eq_add_of_lt h
  have hw := width_pos (b.pieceAt 0 h)
  have hsize := size_drop b (b.pieceAt 0 h).width
  rw [pieces_eq_piecesFrom, pieces_eq_piecesFrom, piecesFrom_drop, Nat.add_zero]
  have hfuel : b.piecesFrom b.size 0 = b.piecesFrom (n + 1) 0 := by
    rw [hn, Nat.zero_add]
  rw [hfuel, piecesFrom, dif_pos h, Nat.zero_add]
  congr 1
  exact piecesFrom_of_le b (by omega) (by omega)

/-- The first piece stands for the bytes that the rest comes after. -/
theorem eq_bytes_append {b : Bytes} (h : 0 < b.size) :
    b = (b.pieceAt 0 h).bytes ++ b.drop (b.pieceAt 0 h).width := by
  unfold pieceAt
  split
  · next c hc =>
    have hb := ByteArray.eq_of_utf8DecodeChar?_eq_some hc
    rw [← List.utf8Encode_singleton, ← String.toByteArray_singleton] at hb
    exact hb
  · next hn =>
    have hone : Bytes.ofList [b[0]] = b.extract 0 1 := (ByteArray.extract_add_one h).symm
    simp only [Piece.bytes, Piece.width, hone, drop, ByteArray.extract_append_extract]
    rw [show min 0 1 = 0 from rfl, show max 1 b.size = b.size by omega,
      ByteArray.extract_zero_size]

/-- The bytes that pieces take together. -/
def ofPieces : List Piece → Bytes
  | [] => .empty
  | p :: rest => p.bytes ++ ofPieces rest

/-- A byte string is made of its pieces. -/
theorem ofPieces_pieces (b : Bytes) : ofPieces b.pieces = b := by
  generalize hn : b.size = n
  induction n using Nat.strongRecOn generalizing b with
  | ind n ih =>
    by_cases hb : 0 < b.size
    · have hw := width_pos (b.pieceAt 0 hb)
      have hsize := size_drop b (b.pieceAt 0 hb).width
      rw [pieces_of_pos hb, ofPieces, ih _ (by omega) _ rfl]
      exact (eq_bytes_append hb).symm
    · rw [ByteArray.size_eq_zero_iff.mp (by omega : b.size = 0)]
      rfl

/-- A line feed is never part of a longer piece. -/
private theorem decode_append_newline {a : Bytes} (ha : 0 < a.size) (b : Bytes) :
    ByteArray.utf8DecodeChar? (a ++ "\n" ++ b) 0 = a.utf8DecodeChar? 0 := by
  cases hc : a.utf8DecodeChar? 0 with
  | some c =>
    rw [ByteArray.append_assoc]
    exact ByteArray.utf8DecodeChar?_append_eq_some hc _
  | none =>
    cases hd : ByteArray.utf8DecodeChar? (a ++ "\n" ++ b) 0 with
    | none => rfl
    | some c =>
      have henc := String.toByteArray_utf8EncodeChar_of_utf8DecodeChar?_eq_some hd
      have hlen : (String.utf8EncodeChar c).length = c.utf8Size := String.length_utf8EncodeChar c
      by_cases hle : c.utf8Size ≤ a.size
      · -- the character would stand in `a` already
        have hpre : (String.utf8EncodeChar c).toByteArray = a.extract 0 c.utf8Size := by
          rw [henc, ByteArray.append_assoc, ByteArray.extract_append, Nat.zero_sub,
            Nat.sub_eq_zero_of_le hle, ByteArray.extract_same, ByteArray.append_empty]
        have ha' : a = (String.utf8EncodeChar c).toByteArray ++ a.extract c.utf8Size a.size := by
          rw [hpre, ByteArray.extract_append_extract, Nat.zero_min, Nat.max_eq_right hle,
            ByteArray.extract_zero_size]
        rw [ha', ByteArray.utf8DecodeChar?_utf8EncodeChar_append] at hc
        cases hc
      · -- the line feed would be a byte within the character
        have hi : a.size < (String.utf8EncodeChar c).length := by omega
        have hbyte : (String.utf8EncodeChar c)[a.size] = 10 := by
          have hget : (String.utf8EncodeChar c)[a.size]? = some 10 := by
            rw [← List.toList_data_toByteArray (l := String.utf8EncodeChar c), henc]
            simp only [ByteArray.data_extract, ByteArray.data_append, Array.toList_extract]
            rw [Array.toList_append, Array.toList_append]
            have hsize : a.data.toList.length = a.size := rfl
            have hfeed : (Bytes.ofString "\n").data.toList = [10] := by decide
            rw [hfeed, List.extract_eq_take_drop, List.drop_zero, Nat.sub_zero,
              List.getElem?_take_of_lt (by omega), List.append_assoc, ← hsize,
              List.getElem?_append_right (Nat.le_refl _), Nat.sub_self]
            rfl
          simpa [List.getElem?_eq_getElem hi] using hget
        have hfirst : UInt8.IsUTF8FirstByte (String.utf8EncodeChar c)[a.size] := by
          rw [hbyte]
          decide
        have hzero := UInt8.isUTF8FirstByte_getElem_utf8EncodeChar.mp hfirst
        omega

private theorem pieceAt_append_newline {a : Bytes} (ha : 0 < a.size) (b : Bytes)
    (h : 0 < (a ++ Bytes.ofString "\n" ++ b).size) :
    pieceAt (a ++ "\n" ++ b) 0 h = a.pieceAt 0 ha := by
  have hbyte : (a ++ Bytes.ofString "\n" ++ b)[0] = a[0] := by
    simp only [ByteArray.append_assoc]
    exact ByteArray.getElem_append_left ha
  simp only [pieceAt, decode_append_newline ha b, hbyte]

private theorem width_pieceAt_le {a : Bytes} (ha : 0 < a.size) : (a.pieceAt 0 ha).width ≤ a.size := by
  have hsize := congrArg ByteArray.size (eq_bytes_append ha)
  rw [ByteArray.size_append] at hsize
  have hw : (a.pieceAt 0 ha).bytes.size = (a.pieceAt 0 ha).width := by
    cases a.pieceAt 0 ha with
    | char c => exact String.utf8ByteSize_singleton
    | stray x => rfl
  omega

theorem drop_append {a : Bytes} {k : Nat} (h : k ≤ a.size) (b : Bytes) :
    drop (a ++ b) k = a.drop k ++ b := by
  have hleft : a.extract k (a.size + b.size) = a.extract k a.size := by
    apply ByteArray.ext
    rw [ByteArray.data_extract, ByteArray.data_extract]
    exact Array.extract_eq_extract_right.mpr (by rw [ByteArray.size_data]; omega)
  rw [drop, ByteArray.extract_append, Nat.sub_eq_zero_of_le h, ByteArray.size_append, hleft,
    Nat.add_sub_cancel_left, ByteArray.extract_zero_size, drop]

/-- A line feed stands between the pieces before it and those after it. -/
theorem pieces_append_newline (a b : Bytes) :
    pieces (a ++ "\n" ++ b) = a.pieces ++ .char '\n' :: b.pieces := by
  generalize hn : a.size = n
  induction n using Nat.strongRecOn generalizing a with
  | ind n ih =>
    have hfeed : (Bytes.ofString "\n").size = 1 := by decide
    have hpos : 0 < (a ++ Bytes.ofString "\n" ++ b).size := by
      simp only [ByteArray.size_append, hfeed]
      omega
    by_cases ha : 0 < a.size
    · have hw := width_pos (a.pieceAt 0 ha)
      have hle := width_pieceAt_le ha
      have hsize := size_drop a (a.pieceAt 0 ha).width
      rw [pieces_of_pos hpos, pieces_of_pos ha, pieceAt_append_newline ha, ByteArray.append_assoc,
        drop_append hle, ← ByteArray.append_assoc, ih _ (by omega) _ rfl]
      rfl
    · have hempty : a = ByteArray.empty := ByteArray.size_eq_zero_iff.mp (by omega)
      subst hempty
      have hdecode : ByteArray.utf8DecodeChar? (Bytes.ofString "\n" ++ b) 0 = some '\n' := by
        rw [show Bytes.ofString "\n" = (String.utf8EncodeChar '\n').toByteArray by decide]
        exact ByteArray.utf8DecodeChar?_utf8EncodeChar_append
      have hpiece : ∀ h, pieceAt (Bytes.ofString "\n" ++ b) 0 h = .char '\n' := fun h => by
        simp only [pieceAt, hdecode]
      have hdrop : drop (Bytes.ofString "\n" ++ b) 1 = b := by
        rw [drop_append (Nat.le_of_eq hfeed.symm)]
        exact ByteArray.empty_append
      simp only [ByteArray.empty_append] at hpos ⊢
      rw [pieces_of_pos hpos, hpiece, show (Piece.char '\n').width = 1 from rfl, hdrop]
      rfl

theorem ofString_singleton (c : Char) :
    ofString (String.singleton c) = (String.utf8EncodeChar c).toByteArray := by
  rw [← List.utf8Encode_singleton, ← String.toByteArray_singleton]
  rfl

theorem toList_singleton (c : Char) :
    (ofString (String.singleton c)).toList = String.utf8EncodeChar c := by
  rw [ofString_singleton]
  exact List.toList_data_toByteArray

theorem size_singleton (c : Char) : (ofString (String.singleton c)).size = c.utf8Size :=
  String.utf8ByteSize_singleton

theorem size_singleton_append_pos (c : Char) (b : Bytes) :
    0 < (ofString (String.singleton c) ++ b).size := by
  have hc := c.utf8Size_pos
  rw [ByteArray.size_append, size_singleton]
  omega

theorem pieceAt_singleton_append (c : Char) (b : Bytes)
    (h : 0 < (ofString (String.singleton c) ++ b).size) :
    pieceAt (ofString (String.singleton c) ++ b) 0 h = .char c := by
  have hdecode : ByteArray.utf8DecodeChar? (ofString (String.singleton c) ++ b) 0 = some c := by
    rw [ofString_singleton]
    exact ByteArray.utf8DecodeChar?_utf8EncodeChar_append
  simp only [pieceAt, hdecode]

theorem drop_singleton_append (c : Char) (b : Bytes) :
    drop (ofString (String.singleton c) ++ b) c.utf8Size = b := by
  rw [drop_append (Nat.le_of_eq (size_singleton c).symm), drop, ← size_singleton,
    ByteArray.extract_same]
  exact ByteArray.empty_append

/-- An encoded character is the first piece. -/
theorem pieces_singleton_append (c : Char) (b : Bytes) :
    pieces (ofString (String.singleton c) ++ b) = .char c :: b.pieces := by
  rw [pieces_of_pos (size_singleton_append_pos c b), pieceAt_singleton_append, Piece.width,
    drop_singleton_append]

theorem ofString_cons (c : Char) (cs : List Char) :
    ofString (String.ofList (c :: cs)) =
      ofString (String.singleton c) ++ ofString (String.ofList cs) := by
  rw [String.singleton_eq_ofList, ← ofString_append, ← String.ofList_append]
  rfl

/-- The pieces of a text that is encoded are its characters. -/
theorem pieces_ofString (cs : List Char) : pieces (ofString (String.ofList cs)) = cs.map .char := by
  induction cs with
  | nil => rfl
  | cons c cs ih => rw [ofString_cons, pieces_singleton_append, ih, List.map_cons]

/-- Characters are encoded by the bytes they take together. -/
theorem ofPieces_map_char (cs : List Char) :
    ofPieces (cs.map .char) = ofString (String.ofList cs) := by
  rw [← pieces_ofString, ofPieces_pieces]

/-- What follows a line feed in a text that is encoded is encoded too. -/
theorem exists_ofString_of_newline {cs : List Char} {a b : Bytes}
    (h : ofString (String.ofList cs) = a ++ "\n" ++ b) :
    ∃ rest, b = ofString (String.ofList rest) := by
  have hpieces := congrArg pieces h
  rw [pieces_ofString, pieces_append_newline] at hpieces
  obtain ⟨-, after, -, -, hafter⟩ := List.map_eq_append_iff.mp hpieces
  obtain ⟨-, rest, -, -, hrest⟩ := List.map_eq_cons_iff.mp hafter
  exact ⟨rest, by rw [← ofPieces_map_char, hrest, ofPieces_pieces]⟩

/-- A text that is encoded shows its characters. -/
theorem chars_ofString (cs : List Char) : chars (ofString (String.ofList cs)) = cs := by
  rw [chars_eq_map, pieces_ofString, List.map_map]
  exact List.map_id cs

/-- A text that is encoded shows its characters before those of what follows it. -/
theorem chars_ofString_append (cs : List Char) (b : Bytes) :
    chars (ofString (String.ofList cs) ++ b) = cs ++ b.chars := by
  have hpieces : pieces (ofString (String.ofList cs) ++ b) = cs.map .char ++ b.pieces := by
    induction cs with
    | nil =>
      have hempty : ofString (String.ofList []) = ByteArray.empty := rfl
      rw [hempty, ByteArray.empty_append, List.map_nil, List.nil_append]
    | cons c cs ih =>
      rw [ofString_cons, ByteArray.append_assoc, pieces_singleton_append, ih, List.map_cons,
        List.cons_append]
  rw [chars_eq_map, hpieces, List.map_append, List.map_map, ← chars_eq_map]
  exact congrArg (· ++ b.chars) (List.map_id cs)

theorem length_ofString (cs : List Char) : (ofString (String.ofList cs)).length = cs.length := by
  rw [length_eq_length_chars, chars_ofString]

theorem chars_append_newline (a b : Bytes) : chars (a ++ "\n" ++ b) = a.chars ++ '\n' :: b.chars := by
  simp [chars_eq_map, pieces_append_newline, Piece.shown]

end Kotoba.Bytes
