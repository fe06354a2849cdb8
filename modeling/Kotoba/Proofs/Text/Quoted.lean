import Kotoba.Proofs.Text.Utf8
import Kotoba.Text.Quoted

/-! Quoted strings can be read back: what stands between the quotes tells which bytes it is for. -/
namespace Kotoba.Text

/-- The value of a hexadecimal digit. -/
def hexDigit (c : Char) : Nat := if c.isDigit then c.toNat - 48 else c.toNat - 87

/-- The number that hexadecimal digits stand for. -/
def hexValue (digits : List Char) : Nat := digits.foldl (fun n c => n * 16 + hexDigit c) 0

private theorem hexDigit_digitChar {d : Nat} (h : d < 16) : hexDigit d.digitChar = d := by
  revert d
  decide

private theorem hexValue_toDigits (n : Nat) : hexValue (Nat.toDigits 16 n) = n := by
  induction n using Nat.strongRecOn with
  | ind n ih =>
    rw [Nat.toDigits_eq_if (by decide)]
    split
    · next h => simp [hexValue, hexDigit_digitChar h]
    · next h =>
      have hrest := ih (n / 16) (by omega)
      have hlast := hexDigit_digitChar (Nat.mod_lt n (by decide : 0 < 16))
      simp only [hexValue, List.foldl_append, List.foldl_cons, List.foldl_nil] at hrest ⊢
      rw [hrest, hlast]
      omega

private theorem hexValue_zeros (k : Nat) (digits : List Char) :
    hexValue (List.replicate k '0' ++ digits) = hexValue digits := by
  induction k with
  | zero => rfl
  | succ k ih =>
    rw [← ih]
    simp [hexValue, List.replicate_succ, show hexDigit '0' = 0 by decide]

theorem hexValue_hex (width n : Nat) : hexValue (hex width n).toList = n := by
  rw [hex, String.toList_ofList, hexValue_zeros, hexValue_toDigits]

theorem length_hex {width n : Nat} (hw : 0 < width) (hn : n < Nat.pow 16 width) :
    (hex width n).toList.length = width := by
  have hlen := (Nat.length_toDigits_le_iff (by decide : 1 < 16) hw).mpr hn
  simp only [hex, String.toList_ofList, List.length_append, List.length_replicate]
  omega

/-- The character after a backslash that stands alone for a character. -/
def shortEscape : Char → Char
  | 'a' => '\x07'
  | 'b' => '\x08'
  | 't' => '\t'
  | 'n' => '\n'
  | 'v' => '\x0b'
  | 'f' => '\x0c'
  | 'r' => '\r'
  | c => c

/-- The bytes that the first escaped piece stands for, and what follows it. -/
def unescape : List Char → Bytes × List Char
  | '\\' :: 'x' :: rest => (.ofList [UInt8.ofNat (hexValue (rest.take 2))], rest.drop 2)
  | '\\' :: 'u' :: rest => ((Piece.char (.ofNat (hexValue (rest.take 4)))).bytes, rest.drop 4)
  | '\\' :: 'U' :: rest => ((Piece.char (.ofNat (hexValue (rest.take 8)))).bytes, rest.drop 8)
  | '\\' :: c :: rest => ((Piece.char (shortEscape c)).bytes, rest)
  | c :: rest => ((Piece.char c).bytes, rest)
  | [] => (.empty, [])

/-- How the escaped form of a piece looks. -/
inductive Escaped : Piece → List Char → Prop
  | plain (c : Char) (hq : c ≠ '"') (hb : c ≠ '\\') (hn : c ≠ '\x00') : Escaped (.char c) [c]
  | short (c : Char) (h : c ∈ ['"', '\\', 'a', 'b', 't', 'n', 'v', 'f', 'r']) :
    Escaped (.char (shortEscape c)) ['\\', c]
  | byte (p : Piece) (n : Nat) (hn : n < 256) (hp : p.bytes = .ofList [.ofNat n]) :
    Escaped p ('\\' :: 'x' :: (hex 2 n).toList)
  | four (c : Char) (h : c.toNat < 0x10000) : Escaped (.char c) ('\\' :: 'u' :: (hex 4 c.toNat).toList)
  | eight (c : Char) : Escaped (.char c) ('\\' :: 'U' :: (hex 8 c.toNat).toList)

private theorem bytes_char_of_lt {c : Char} (h : c.toNat < 0x80) :
    (Piece.char c).bytes = .ofList [UInt8.ofNat c.toNat] := by
  have hsize : c.utf8Size = 1 := Char.utf8Size_eq_one_iff.mpr (UInt32.le_iff_toNat_le.mpr (by
    have : c.val.toNat = c.toNat := rfl
    show c.val.toNat ≤ 127
    omega))
  show (String.singleton c).toByteArray = _
  rw [String.toByteArray_singleton, List.utf8Encode_singleton,
    String.utf8EncodeChar_eq_singleton hsize]
  have hbyte : c.val.toUInt8 = UInt8.ofNat c.toNat := rfl
  rw [hbyte]
  apply ByteArray.ext
  simp [Bytes.ofList]

theorem escaped_escape (p : Piece) : Escaped p p.escape.toList := by
  cases p with
  | stray x =>
    have h := Escaped.byte (.stray x) x.toNat x.toNat_lt (by simp [Piece.bytes])
    simpa [Piece.escape] using h
  | char c =>
    rw [Piece.escape, Text.escape]
    split
    · next h => subst h; exact .short '"' (by decide)
    · split
      · next h => subst h; exact .short '\\' (by decide)
      · next hq hb =>
        split
        · next hp =>
          rw [String.toList_singleton]
          refine .plain c hq hb ?_
          rintro rfl
          revert hp
          decide
        · have hofNat : Char.ofNat c.toNat = c := Char.ofNat_toNat c
          split
          case h_1 h => exact (hofNat.symm.trans (congrArg _ h)) ▸ .short 'a' (by decide)
          case h_2 h => exact (hofNat.symm.trans (congrArg _ h)) ▸ .short 'b' (by decide)
          case h_3 h => exact (hofNat.symm.trans (congrArg _ h)) ▸ .short 't' (by decide)
          case h_4 h => exact (hofNat.symm.trans (congrArg _ h)) ▸ .short 'n' (by decide)
          case h_5 h => exact (hofNat.symm.trans (congrArg _ h)) ▸ .short 'v' (by decide)
          case h_6 h => exact (hofNat.symm.trans (congrArg _ h)) ▸ .short 'f' (by decide)
          case h_7 h => exact (hofNat.symm.trans (congrArg _ h)) ▸ .short 'r' (by decide)
          case h_8 =>
            split
            · next h =>
              have hlow : c.toNat < 0x80 := by
                simp only [Bool.or_eq_true, decide_eq_true_eq, beq_iff_eq] at h
                omega
              simpa using Escaped.byte (.char c) c.toNat (by omega) (bytes_char_of_lt hlow)
            · split
              · next h => simpa using Escaped.four c h
              · simpa using Escaped.eight c

theorem unescape_append {p : Piece} {cs : List Char} (h : Escaped p cs) (rest : List Char) :
    unescape (cs ++ rest) = (p.bytes, rest) := by
  cases h with
  | plain c hq hb hn => simp [unescape, hb]
  | short c h =>
    simp only [List.mem_cons, List.not_mem_nil, or_false] at h
    rcases h with rfl | rfl | rfl | rfl | rfl | rfl | rfl | rfl | rfl <;> rfl
  | byte _ n hn hp =>
    have hlen := length_hex (by decide : 0 < 2) hn
    simp [unescape, List.take_left' hlen, List.drop_left' hlen, hexValue_hex, hp]
  | four c h =>
    have hlen := length_hex (by decide : 0 < 4) h
    simp [unescape, List.take_left' hlen, List.drop_left' hlen, hexValue_hex]
  | eight c =>
    have hlen : (hex 8 c.toNat).toList.length = 8 := length_hex (by decide) c.val.toNat_lt
    simp [unescape, List.take_left' hlen, List.drop_left' hlen, hexValue_hex]

/-- Of two texts that are the same each begins with the same piece. -/
theorem Escaped.cancel {p q : Piece} {cs ds x y : List Char} (hp : Escaped p cs)
    (hq : Escaped q ds) (h : cs ++ x = ds ++ y) : p.bytes = q.bytes ∧ x = y := by
  have hx := unescape_append hp x
  rw [h, unescape_append hq y] at hx
  exact ⟨(Prod.mk.inj hx).1.symm, (Prod.mk.inj hx).2.symm⟩

theorem Escaped.head_ne {p : Piece} {cs : List Char} (h : Escaped p cs) :
    ∃ c rest, cs = c :: rest ∧ c ≠ '"' := by
  cases h with
  | plain c hq hb hn => exact ⟨c, [], rfl, hq⟩
  | short c h => exact ⟨_, _, rfl, by decide⟩
  | byte n hn hp => exact ⟨_, _, rfl, by decide⟩
  | four c h => exact ⟨_, _, rfl, by decide⟩
  | eight c => exact ⟨_, _, rfl, by decide⟩

/-- The escaped forms of pieces, one after the other. -/
def escapes (pieces : List Piece) : List Char := pieces.flatMap fun p => p.escape.toList

/-- Up to the closing quote the pieces can be told. -/
private theorem pieces_cancel {ps qs : List Piece} {x y : List Char}
    (h : escapes ps ++ '"' :: x = escapes qs ++ '"' :: y) :
    Bytes.ofPieces ps = Bytes.ofPieces qs ∧ x = y := by
  induction ps generalizing qs with
  | nil =>
    cases qs with
    | nil => exact ⟨rfl, (List.cons.inj h).2⟩
    | cons q qs =>
      obtain ⟨c, rest, hc, hne⟩ := (escaped_escape q).head_ne
      simp only [escapes, List.flatMap_nil, List.nil_append, List.flatMap_cons, hc,
        List.cons_append] at h
      exact absurd (List.cons.inj h).1.symm hne
  | cons p ps ih =>
    cases qs with
    | nil =>
      obtain ⟨c, rest, hc, hne⟩ := (escaped_escape p).head_ne
      simp only [escapes, List.flatMap_nil, List.nil_append, List.flatMap_cons, hc,
        List.cons_append] at h
      exact absurd (List.cons.inj h).1 hne
    | cons q qs =>
      simp only [escapes, List.flatMap_cons, List.append_assoc] at h
      obtain ⟨hbytes, hrest⟩ := (escaped_escape p).cancel (escaped_escape q) h
      obtain ⟨hmore, hxy⟩ := ih hrest
      exact ⟨by rw [Bytes.ofPieces, Bytes.ofPieces, hbytes, hmore], hxy⟩

/-- A byte string in quotes, as characters. -/
def quoted (b : Bytes) : List Char := '"' :: (escapes b.pieces ++ ['"'])

theorem quote_eq_ofString (b : Bytes) : quote b = Bytes.ofString (String.ofList (quoted b)) := by
  have hfold : ∀ (ps : List Piece) (cs : List Char),
      ps.foldl (fun acc p => acc ++ Bytes.ofString p.escape) (Bytes.ofString (String.ofList cs)) =
        Bytes.ofString (String.ofList (cs ++ escapes ps)) := by
    intro ps
    induction ps with
    | nil => simp [escapes]
    | cons p ps ih =>
      intro cs
      have happend : Bytes.ofString (String.ofList cs) ++ Bytes.ofString p.escape =
          Bytes.ofString (String.ofList (cs ++ p.escape.toList)) := by
        rw [String.ofList_append, String.ofList_toList, Bytes.ofString_append]
      rw [List.foldl_cons, happend, ih]
      simp [escapes]
  have hopen : Bytes.ofString "\"" = Bytes.ofString (String.ofList ['"']) := rfl
  have hquoted : String.ofList (quoted b) = String.ofList (['"'] ++ escapes b.pieces) ++ "\"" := by
    rw [quoted, show "\"" = String.ofList ['"'] from rfl, ← String.ofList_append]
    rfl
  rw [quote, Bytes.foldPieces_eq_foldl, hopen, hfold, hquoted, Bytes.ofString_append]

theorem quoted_cancel {a b : Bytes} {x y : List Char} (h : quoted a ++ x = quoted b ++ y) :
    a = b ∧ x = y := by
  simp only [quoted, List.cons_append, List.append_assoc, List.nil_append, List.cons.injEq,
    true_and] at h
  obtain ⟨hpieces, hxy⟩ := pieces_cancel h
  rw [Bytes.ofPieces_pieces, Bytes.ofPieces_pieces] at hpieces
  exact ⟨hpieces, hxy⟩

end Kotoba.Text
