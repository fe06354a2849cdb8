import Kotoba.Proofs.Machine.Range
import Kotoba.Proofs.Text.Bytes
import Kotoba.Proofs.Text.Utf8

/-! Splitting. A text is cut at the leftmost occurrences of the separator that do not overlap, so
that nothing of it is lost and no part holds the separator. Without a separator it is cut into its
characters. -/
namespace Kotoba

namespace Bytes

open Text (Piece)

/-- The offsets at which `sep` is found in `text`, from left to right: from `start` on there is none
before the first of them, and each is followed by those from its end on. -/
inductive Occurrences (sep text : List UInt8) : (start : Nat) → List Nat → Prop
  | none {start : Nat} (free : ∀ i, start ≤ i → ¬ sep <+: text.drop i) :
    Occurrences sep text start []
  | next {start i : Nat} {offsets : List Nat} (le : start ≤ i) (here : sep <+: text.drop i)
    (leftmost : ∀ j, start ≤ j → j < i → ¬ sep <+: text.drop j)
    (later : Occurrences sep text (i + sep.length) offsets) :
    Occurrences sep text start (i :: offsets)

/-- What stands in `text` between the given offsets, `width` bytes being left out at each. -/
def between (width : Nat) (text : List UInt8) : (start : Nat) → List Nat → List (List UInt8)
  | start, [] => [text.drop start]
  | start, i :: offsets =>
    (text.drop start).take (i - start) :: between width text (i + width) offsets

theorem length_between (width : Nat) (text : List UInt8) (start : Nat) (offsets : List Nat) :
    (between width text start offsets).length = offsets.length + 1 := by
  induction offsets generalizing start with
  | nil => rfl
  | cons i offsets ih => rw [between, List.length_cons, ih, List.length_cons]

section Splitting

variable {sep text : List UInt8}

/-- While a text is split, `piece` holds what comes after the last occurrence, which ends at
`start`, up to the offset `now` that is looked at; or else `skip` bytes of that occurrence are still
to be passed over. -/
theorem splitList_eq_between (hsep : sep ≠ []) {skip start now : Nat} {piece rest : List UInt8}
    (hrest : text.drop now = rest) (hbound : start ≤ text.length)
    (hskip : skip = 0 ∧ start ≤ now ∨ start = now + skip)
    (hpiece : piece.reverse = (text.drop start).take (now - start))
    (hfree : ∀ j, start ≤ j → j < now → ¬ sep <+: text.drop j) :
    ∃ offsets, Occurrences sep text start offsets ∧
      splitList sep skip piece rest = between sep.length text start offsets := by
  induction rest generalizing skip start now piece with
  | nil =>
    have hnow : text.length ≤ now := List.drop_eq_nil_iff.mp hrest
    refine ⟨[], .none fun i hi hat => ?_, ?_⟩
    · by_cases hlt : i < now
      · exact hfree i hi hlt hat
      · rw [List.drop_eq_nil_of_le (by omega)] at hat
        exact hsep (List.prefix_nil.mp hat)
    · have hwhole : piece.reverse = text.drop start := by
        rw [hpiece]
        exact List.take_of_length_le (by rw [List.length_drop]; omega)
      cases skip <;> rw [splitList, hwhole, between]
  | cons b rest ih =>
    have hlt : now < text.length := by
      by_contra hge
      rw [List.drop_eq_nil_of_le (by omega)] at hrest
      cases hrest
    have htail : text.drop (now + 1) = rest := by
      rw [← List.drop_drop, hrest, List.drop_one, List.tail_cons]
    cases skip with
    | succ skip =>
      have hstart : start = now + (skip + 1) := by omega
      have hnone : piece.reverse = (text.drop start).take (now + 1 - start) := by
        rw [hpiece, show now - start = 0 by omega, show now + 1 - start = 0 by omega]
      exact ih htail hbound (.inr (by omega)) hnone fun j hj hjn => by omega
    | zero =>
      have hstart : start ≤ now := by omega
      by_cases hhere : sep <+: text.drop now
      · have hbool : sep.isPrefixOf (b :: rest) = true := by
          rw [List.isPrefixOf_iff_prefix, ← hrest]
          exact hhere
        have hlen : sep.length ≤ text.length - now := by
          rw [← List.length_drop]
          exact hhere.length_le
        have hpos : 0 < sep.length := List.length_pos_iff.mpr hsep
        have hnone : [].reverse = (text.drop (now + sep.length)).take
            (now + 1 - (now + sep.length)) := by
          rw [show now + 1 - (now + sep.length) = 0 by omega]
          rfl
        have hrest : now + sep.length = now + 1 + (sep.length - 1) := by omega
        obtain ⟨offsets, hoffsets, hsplit⟩ :=
          ih htail (by omega) (.inr hrest) hnone fun j hj hjn => by omega
        refine ⟨now :: offsets, .next hstart hhere hfree hoffsets, ?_⟩
        rw [splitList, if_pos hbool, hsplit, between, hpiece]
      · have hbool : ¬ sep.isPrefixOf (b :: rest) = true := by
          rw [List.isPrefixOf_iff_prefix, ← hrest]
          exact hhere
        have hpiece' : (b :: piece).reverse = (text.drop start).take (now + 1 - start) := by
          have hget : (text.drop start)[now - start]? = some b := by
            rw [List.getElem?_drop, show start + (now - start) = now + 0 by omega,
              ← List.getElem?_drop, hrest]
            rfl
          rw [List.reverse_cons, hpiece, show now + 1 - start = now - start + 1 by omega,
            List.take_add_one, hget]
          rfl
        rw [splitList, if_neg hbool]
        refine ih htail hbound (.inl ⟨rfl, by omega⟩) hpiece' fun j hj hjn => ?_
        by_cases hj' : j = now
        · rw [hj']
          exact hhere
        · exact hfree j hj (by omega)

/-- No piece holds the separator: it would have been found there. -/
theorem not_infix_of_mem_between (hsep : sep ≠ []) {start : Nat} {offsets : List Nat}
    (h : Occurrences sep text start offsets) {p : List UInt8}
    (hp : p ∈ between sep.length text start offsets) : ¬ sep <:+: p := by
  have hpos : 0 < sep.length := List.length_pos_iff.mpr hsep
  have hfound : ∀ {start : Nat} {front back : List UInt8},
      front ++ sep ++ back <+: text.drop start → sep <+: text.drop (start + front.length) := by
    rintro start front back ⟨rest, hrest⟩
    rw [← List.drop_drop, ← hrest, List.append_assoc, List.append_assoc, List.drop_left]
    exact List.prefix_append _ _
  rintro ⟨front, back, rfl⟩
  induction h with
  | @none start free =>
    rw [between, List.mem_singleton] at hp
    have hwhole : front ++ sep ++ back <+: text.drop start := hp ▸ List.prefix_rfl
    exact free _ (Nat.le_add_right _ _) (hfound hwhole)
  | next le here leftmost later ih =>
    rw [between, List.mem_cons] at hp
    obtain hp | hp := hp
    · have hlen := congrArg List.length hp
      rw [List.length_append, List.length_append, List.length_take] at hlen
      exact leftmost _ (Nat.le_add_right _ _) (by omega) (hfound (hp ▸ List.take_prefix _ _))
    · exact ih hp

/-- With the separator between them, the pieces are the text again. -/
theorem join_between (sep : Bytes) {start : Nat} {offsets : List Nat}
    (h : Occurrences sep.toList text start offsets) :
    join sep ((between sep.toList.length text start offsets).map ofList) =
      ofList (text.drop start) := by
  induction h with
  | none => rfl
  | @next start i offsets le here leftmost later ih =>
    have hne : (between sep.toList.length text (i + sep.toList.length) offsets).map ofList ≠ [] := by
      rw [← List.length_pos_iff, List.length_map, length_between]
      exact Nat.succ_pos _
    obtain ⟨rest, hrest⟩ := here
    have hlater : text.drop (i + sep.toList.length) = rest := by
      rw [← List.drop_drop, ← hrest, List.drop_left]
    rw [between, List.map_cons, join_cons _ _ hne, ih, hlater]
    apply eq_of_toList
    simp only [toList_append, toList_ofList]
    calc (text.drop start).take (i - start) ++ sep.toList ++ rest
        = (text.drop start).take (i - start) ++ (text.drop start).drop (i - start) := by
          rw [List.append_assoc, hrest, List.drop_drop, Nat.add_sub_cancel' le]
      _ = text.drop start := List.take_append_drop _ _

end Splitting

/-- A text is split at the leftmost occurrences of the separator that do not overlap. -/
theorem splitOn_eq_between (text : Bytes) {sep : Bytes} (hsep : sep ≠ .empty) :
    ∃ offsets, Occurrences sep.toList text.toList 0 offsets ∧
      text.splitOn sep = (between sep.toList.length text.toList 0 offsets).map ofList := by
  have hne : sep.toList ≠ [] := fun h => hsep (eq_empty h)
  have hwhole : text.toList.drop 0 = text.toList := List.drop_zero
  have hnone : [].reverse = (text.toList.drop 0).take (0 - 0) := rfl
  obtain ⟨offsets, hoffsets, hsplit⟩ := splitList_eq_between hne hwhole (Nat.zero_le _)
    (.inl ⟨rfl, Nat.le_refl 0⟩) hnone fun j _ hj => absurd hj (Nat.not_lt_zero j)
  exact ⟨offsets, hoffsets, by rw [splitOn, hsplit]⟩

/-- A piece of a text is one character by itself; what begins none in the text begins none alone. -/
theorem chars_bytes_pieceAt {text : Bytes} (h : 0 < text.size) :
    (text.pieceAt 0 h).bytes.chars = [(text.pieceAt 0 h).shown] := by
  have hbytes := eq_bytes_append h
  cases hp : text.pieceAt 0 h with
  | char c =>
    have hsingle : (Piece.char c).bytes = ofString (String.ofList [c]) := rfl
    rw [hsingle, chars_ofString]
    rfl
  | stray x =>
    rw [hp] at hbytes
    have hnone : text.utf8DecodeChar? 0 = none := by
      unfold pieceAt at hp
      split at hp
      · cases hp
      · assumption
    have halone : ByteArray.utf8DecodeChar? (ofList [x]) 0 = none := by
      cases hc : ByteArray.utf8DecodeChar? (ofList [x]) 0 with
      | none => rfl
      | some c =>
        have hsome := ByteArray.utf8DecodeChar?_append_eq_some hc (text.drop 1)
        rw [← hnone, ← hsome]
        exact congrArg (ByteArray.utf8DecodeChar? · 0) hbytes.symm
    have hpos : 0 < (ofList [x]).size := Nat.one_pos
    have hpiece : (ofList [x]).pieceAt 0 hpos = .stray x := by
      unfold pieceAt
      rw [halone]
      rfl
    have hrest : (ofList [x]).drop 1 = .empty := drop_of_size_le (Nat.le_refl _)
    rw [Piece.bytes, chars_eq_map, pieces_of_pos hpos, hpiece, Piece.width, hrest]
    rfl

/-- The pieces of a text, each by itself, are its characters. -/
theorem map_chars_pieces (text : Bytes) :
    (text.pieces.map (·.bytes)).map chars = text.chars.map fun c => [c] := by
  generalize hn : text.size = n
  induction n using Nat.strongRecOn generalizing text with
  | ind n ih =>
    by_cases h : 0 < text.size
    · have hw := width_pos (text.pieceAt 0 h)
      have hsize := size_drop text (text.pieceAt 0 h).width
      have hrest := ih _ (by omega) (text.drop (text.pieceAt 0 h).width) rfl
      rw [chars_eq_map] at hrest ⊢
      rw [pieces_of_pos h, List.map_cons, List.map_cons, List.map_cons, List.map_cons,
        chars_bytes_pieceAt h, hrest]
    · rw [ByteArray.size_eq_zero_iff.mp (by omega : text.size = 0)]
      rfl

/-- Pieces with nothing between them are what they take together. -/
theorem join_empty (ps : List Piece) : join .empty (ps.map (·.bytes)) = ofPieces ps := by
  induction ps with
  | nil => rfl
  | cons p ps ih =>
    cases ps with
    | nil => exact ByteArray.append_empty.symm
    | cons q ps =>
      rw [List.map_cons, join_cons _ _ (by simp), ih, ByteArray.append_empty]
      rfl

end Bytes

namespace Machine

theorem splitText_empty (text : Bytes) : splitText text .empty = text.pieces.map (·.bytes) := rfl

theorem splitText_of_ne (text : Bytes) {sep : Bytes} (hsep : sep ≠ .empty) :
    ∃ offsets, Bytes.Occurrences sep.toList text.toList 0 offsets ∧
      splitText text sep =
        (Bytes.between sep.toList.length text.toList 0 offsets).map Bytes.ofList := by
  rw [splitText, if_neg fun h => hsep (Bytes.eq_empty_of_isEmpty h)]
  exact Bytes.splitOn_eq_between text hsep

theorem join_splitText (text sep : Bytes) : Bytes.join sep (splitText text sep) = text := by
  by_cases hsep : sep = .empty
  · subst hsep
    rw [splitText_empty, Bytes.join_empty, Bytes.ofPieces_pieces]
  · obtain ⟨offsets, hoffsets, hsplit⟩ := splitText_of_ne text hsep
    rw [hsplit, Bytes.join_between sep hoffsets]
    rfl

/-- What a split binds its name to: the parts of the text in an array of their own. Nothing is lost:
with the separator between them the parts are the text again. They stand between the occurrences of
the separator, which are found from left to right and do not overlap, so that there is one part more
than occurrences and the separator is in none of them. Without a separator, the parts are the
characters of the text. -/
theorem split_binds (rounds depth : Nat) (target : Ident) (source separator : Expr) (span : Span)
    (m m₁ m₂ : Machine) (text sep : Bytes)
    (hsource : evalExpr (runBody rounds depth) source m = .ok (.string text) m₁)
    (hseparator : evalExpr (runBody rounds depth) separator m₁ = .ok (.string sep) m₂) :
    let parts := splitText text sep
    (∃ (array : Nat) (m' : Machine),
      execStmt ⟨runBody rounds depth, rounds⟩ (.split target source separator span) m =
        .ok () m' ∧
      (m.IsLive → m'.arena.lookup m'.scope target.name = .ok (.array array)) ∧
      m'.store.elements array = (parts.map Value.string).toArray) ∧
    Bytes.join sep parts = text ∧
    (sep ≠ .empty →
      (∃ offsets, Bytes.Occurrences sep.toList text.toList 0 offsets ∧
        parts.map Bytes.toList = Bytes.between sep.toList.length text.toList 0 offsets ∧
        parts.length = offsets.length + 1) ∧
      (∀ p ∈ parts, ¬ sep.toList <:+: p.toList) ∧ (text = .empty → parts = [.empty])) ∧
    (sep = .empty → parts.map Bytes.chars = text.chars.map (fun c => [c]) ∧
      ∀ s : String, text = Bytes.ofString s →
        parts = s.toList.map fun c => Bytes.ofString (String.singleton c)) := by
  intro parts
  let array := m₂.store.arrays.size
  have hexec : execStmt ⟨runBody rounds depth, rounds⟩ (.split target source separator span) m =
      .ok () { m₂ with
        store := { m₂.store with arrays := m₂.store.arrays.push (parts.map Value.string).toArray }
        arena := m₂.arena.define m₂.scope target.name (.array array) } := by
    simp [execStmt, execSimple, hsource, hseparator, textOf, Eval.alloc, Store.alloc, Eval.define,
      Step.modify, Step.modifyGet, parts, array]
  refine ⟨⟨array, _, hexec, fun hlive => ?_, ?_⟩, join_splitText text sep, fun hsep => ?_,
    fun hsep => ?_⟩
  · have hlive₁ : m₁.IsLive :=
      hlive.of_surroundings (surroundings_of_stack (restores_evalExpr hlive hsource).stack)
    have hlive₂ : m₂.IsLive :=
      hlive₁.of_surroundings (surroundings_of_stack (restores_evalExpr hlive₁ hseparator).stack)
    exact Arena.lookup_define hlive₂ _ _
  · simp [Store.elements, array]
  · obtain ⟨offsets, hoffsets, hsplit⟩ := splitText_of_ne text hsep
    have hlists : parts.map Bytes.toList =
        Bytes.between sep.toList.length text.toList 0 offsets := by
      rw [show parts = splitText text sep from rfl, hsplit, List.map_map]
      exact List.map_id _
    refine ⟨⟨offsets, hoffsets, hlists, ?_⟩, fun p hp => ?_, fun hempty => ?_⟩
    · rw [← List.length_map (f := Bytes.toList), hlists, Bytes.length_between]
    · have hmem : p.toList ∈ Bytes.between sep.toList.length text.toList 0 offsets :=
        hlists ▸ List.mem_map_of_mem hp
      exact Bytes.not_infix_of_mem_between (fun h => hsep (Bytes.eq_empty h)) hoffsets hmem
    · subst hempty
      exact if_neg fun h => hsep (Bytes.eq_empty_of_isEmpty h)
  · subst hsep
    refine ⟨Bytes.map_chars_pieces text, fun s hs => ?_⟩
    have hpieces := Bytes.pieces_ofString s.toList
    rw [String.ofList_toList] at hpieces
    rw [show parts = text.pieces.map (·.bytes) from rfl, hs, hpieces, List.map_map]
    rfl

/-- A separator that overlaps itself, one after the other in the text and at its end. -/
theorem split_binds_overlap :
    let parts := splitText "aaabaa" "aa"
    parts = [Bytes.ofString "", Bytes.ofString "ab", Bytes.ofString ""] ∧
    (∃ m', execStmt ⟨runBody 0 0, 0⟩
        (.split ⟨"p", {}⟩ (.string "aaabaa" {}) (.string "aa" {}) {}) {} = .ok () m' ∧
      ∃ array, m'.arena.lookup m'.scope "p" = .ok (.array array) ∧
        m'.store.elements array = (parts.map Value.string).toArray) ∧
    Bytes.join "aa" parts = "aaabaa" ∧ ∀ p ∈ parts, ¬ [0x61, 0x61] <:+: p.toList := by
  intro parts
  obtain ⟨⟨array, m', hexec, hbound, helements⟩, hjoin, hpieces, -⟩ := split_binds 0 0 ⟨"p", {}⟩
    (.string "aaabaa" {}) (.string "aa" {}) {} {} {} {} "aaabaa" "aa" rfl rfl
  refine ⟨by decide, ⟨m', hexec, array, hbound (by unfold IsLive; decide), helements⟩, hjoin, ?_⟩
  exact (hpieces (by decide)).2.1

end Machine

end Kotoba
