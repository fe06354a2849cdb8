import Kotoba.File.Stream
import Kotoba.Proofs.File.Disk
import Kotoba.Proofs.Text.Utf8

/-! Readers. Whatever a reader is asked for comes from what it has left of the file, and the rest of
that is what it has left then. -/
namespace Kotoba.File.Reader

/-! ## Beginnings of characters -/

/-- The code points that a character can have: all but the surrogates. -/
theorem toNat_val_lt (c : Char) :
    c.val.toNat < 0xd800 ∨ 0xe000 ≤ c.val.toNat ∧ c.val.toNat < 0x110000 := by
  have := c.valid
  simp only [UInt32.isValidChar, Nat.isValidChar] at this
  omega

/-- A byte that can only stand within a character. -/
def IsTrailing (b : UInt8) : Prop := 0x80 ≤ b ∧ b ≤ 0xbf

/-- Whether the bytes after the leading byte of a character can follow it. -/
def CanFollow (lead : UInt8) : List UInt8 → Prop
  | [] => True
  | second :: others =>
    (secondRange lead).1 ≤ second ∧ second ≤ (secondRange lead).2 ∧ ∀ b ∈ others, IsTrailing b

theorem isTrailing {b : UInt8} {n : Nat} (hb : b.toNat = n) (h : 0x80 ≤ n ∧ n ≤ 0xbf) :
    IsTrailing b := by
  subst hb
  exact ⟨UInt8.le_iff_toNat_le.mpr h.1, UInt8.le_iff_toNat_le.mpr h.2⟩

/-- A second byte is bounded where the leading byte alone would let the encoding be over-long, stand
for a surrogate or go beyond the last code point. -/
theorem canFollow {lead second : UInt8} {others : List UInt8} {l s : Nat} (hlead : lead.toNat = l)
    (hsecond : second.toNat = s) (h : 0x80 ≤ s ∧ s ≤ 0xbf) (he0 : l = 0xe0 → 0xa0 ≤ s)
    (hed : l = 0xed → s ≤ 0x9f) (hf0 : l = 0xf0 → 0x90 ≤ s) (hf4 : l = 0xf4 → s ≤ 0x8f)
    (hothers : ∀ b ∈ others, IsTrailing b) : CanFollow lead (second :: others) := by
  subst hlead hsecond
  have hrange : (secondRange lead).1.toNat ≤ second.toNat ∧
      second.toNat ≤ (secondRange lead).2.toNat := by
    unfold secondRange
    split_ifs with h1 h2 h3 h4
    · exact ⟨he0 (by rw [h1]; rfl), h.2⟩
    · exact ⟨h.1, hed (by rw [h2]; rfl)⟩
    · exact ⟨hf0 (by rw [h3]; rfl), h.2⟩
    · exact ⟨h.1, hf4 (by rw [h4]; rfl)⟩
    · exact h
  exact ⟨UInt8.le_iff_toNat_le.mpr hrange.1, UInt8.le_iff_toNat_le.mpr hrange.2, hothers⟩

theorem characterSize_eq {lead : UInt8} {l : Nat} (hlead : lead.toNat = l) :
    characterSize lead = if l < 0xc2 then 1 else if l < 0xe0 then 2 else if l < 0xf0 then 3
      else if l < 0xf5 then 4 else 1 := by
  subst hlead
  rfl

/-- An encoded character is a leading byte with as many bytes after it as the leading byte tells,
all of them bytes that can follow it. -/
theorem encoded (c : Char) :
    ∃ lead others, String.utf8EncodeChar c = lead :: others ∧
      others.length + 1 = characterSize lead ∧ CanFollow lead others := by
  have hc := toNat_val_lt c
  have hbyte {n : Nat} (h : n < 256) : (UInt8.ofNat n).toNat = n := UInt8.toNat_ofNat_of_lt' h
  have htail (n : Nat) : 0x80 ≤ n % 64 + 128 ∧ n % 64 + 128 ≤ 0xbf := by omega
  have htrailing (n : Nat) : IsTrailing (.ofNat (n % 64 + 128)) :=
    isTrailing (hbyte (by omega)) (htail n)
  unfold String.utf8EncodeChar
  generalize c.val.toNat = v at hc
  dsimp only
  by_cases hone : v ≤ 127
  · refine ⟨_, _, if_pos hone, ?_, trivial⟩
    rw [characterSize_eq (hbyte (by omega)), if_pos (by omega)]
    rfl
  by_cases htwo : v ≤ 2047
  · refine ⟨_, _, by rw [if_neg hone, if_pos htwo], ?_, ?_⟩
    · rw [characterSize_eq (hbyte (by omega)), if_neg (by omega), if_pos (by omega)]
      rfl
    · exact canFollow (hbyte (by omega)) (hbyte (by omega)) (htail v) (by omega) (by omega)
        (by omega) (by omega) nofun
  by_cases hthree : v ≤ 65535
  · refine ⟨_, _, by rw [if_neg hone, if_neg htwo, if_pos hthree], ?_, ?_⟩
    · rw [characterSize_eq (hbyte (by omega)), if_neg (by omega), if_neg (by omega),
        if_pos (by omega)]
      rfl
    · have hothers : ∀ b ∈ [UInt8.ofNat (v % 64 + 128)], IsTrailing b :=
        List.forall_mem_singleton.mpr (htrailing v)
      exact canFollow (hbyte (by omega)) (hbyte (by omega)) (htail (v / 64)) (by omega) (by omega)
        (by omega) (by omega) hothers
  · refine ⟨_, _, by rw [if_neg hone, if_neg htwo, if_neg hthree], ?_, ?_⟩
    · rw [characterSize_eq (hbyte (by omega)), if_neg (by omega), if_neg (by omega),
        if_neg (by omega), if_pos (by omega)]
      rfl
    · have hothers : ∀ b ∈ [UInt8.ofNat (v / 64 % 64 + 128), .ofNat (v % 64 + 128)], IsTrailing b :=
        List.forall_mem_cons.mpr ⟨htrailing (v / 64), List.forall_mem_singleton.mpr (htrailing v)⟩
      exact canFollow (hbyte (by omega)) (hbyte (by omega)) (htail (v / 4096)) (by omega)
        (by omega) (by omega) (by omega) hothers

/-- More bytes are needed as long as a character is not complete. -/
theorem needsMore_take (c : Char) {k : Nat} (h : k < c.utf8Size) :
    needsMore ((String.utf8EncodeChar c).take k) = true := by
  obtain ⟨lead, others, hbytes, hsize, hfollow⟩ := encoded c
  have hlength : (String.utf8EncodeChar c).length = c.utf8Size := String.length_utf8EncodeChar c
  rw [hbytes, List.length_cons] at hlength
  rw [hbytes]
  cases k with
  | zero => rfl
  | succ k =>
    have hless : (others.take k).length + 1 < characterSize lead := by
      rw [List.length_take]
      omega
    rw [List.take_succ_cons]
    simp only [needsMore, hless, decide_true, Bool.true_and]
    cases others with
    | nil => simp
    | cons second others =>
      cases k with
      | zero => rfl
      | succ k =>
        obtain ⟨hlow, hhigh, htrailing⟩ := hfollow
        have hall : ∀ b ∈ others.take k, 0x80 ≤ b ∧ b ≤ 0xbf :=
          fun b hb => htrailing b (List.mem_of_mem_take hb)
        simpa [hlow, hhigh] using hall

/-- Four bytes are always enough. -/
theorem length_lt_of_needsMore {bs : List UInt8} (h : needsMore bs = true) : bs.length < 4 := by
  cases bs with
  | nil => decide
  | cons lead rest =>
    simp only [needsMore, Bool.and_eq_true, decide_eq_true_eq] at h
    have hfour : characterSize lead ≤ 4 := by
      unfold characterSize
      split_ifs <;> decide
    exact Nat.lt_of_lt_of_le h.1 hfour

/-! ## What a reader has left -/

/-- A reader of a file with a content still has `left` to hand out, and it met the end only where
the content ends. -/
structure HasLeft (content : Bytes) (r : Reader) (left : Bytes) : Prop where
  left_eq : r.buffer ++ content.drop r.offset = left
  sound : r.ended = true → content.size ≤ r.offset

theorem HasLeft.eq_buffer {content left : Bytes} {r : Reader} (h : r.HasLeft content left)
    (hended : r.ended = true) : left = r.buffer := by
  rw [← h.left_eq, Bytes.drop_of_size_le (h.sound hended), ByteArray.append_empty]

/-- At the end the first character was read ahead as a whole. -/
theorem HasLeft.utf8Size_le {content left : Bytes} {r : Reader} (h : r.HasLeft content left)
    (hended : r.ended = true) {c : Char} {rest : Bytes}
    (hc : left = Bytes.ofString (String.singleton c) ++ rest) : c.utf8Size ≤ r.buffer.size := by
  rw [← h.eq_buffer hended, hc, ByteArray.size_append, Bytes.size_singleton]
  exact Nat.le_add_right _ _

/-- The end may be looked for anew. -/
theorem HasLeft.reopen {content left : Bytes} {r : Reader} (h : r.HasLeft content left) :
    HasLeft content { r with ended := false } left :=
  ⟨h.left_eq, fun hended => absurd hended Bool.false_ne_true⟩

variable {d : Disk} {location : Disk.Location} {content left : Bytes} {r : Reader}

/-- What a reading does to a reader: it finds the end, or it adds to what was read ahead. -/
def Filled (r : Reader) (content : Bytes) (r' : Reader) : Prop :=
  r'.ended = true ∧ r'.buffer = r.buffer ∧ r'.offset = r.offset ∨
    r'.ended = false ∧ r.buffer.size < r'.buffer.size ∧
      content.size - r'.offset < content.size - r.offset

/-- Reading ahead changes nothing about what is left. -/
theorem fill_hasLeft (hfile : d.get? location = some (.file content))
    (h : r.HasLeft content left) (hroom : r.buffer.size < capacity) :
    ∃ r', r.fill d location = .ok r' ∧ r'.HasLeft content left ∧ r.Filled content r' := by
  let more := (content.drop r.offset).take (capacity - r.buffer.size)
  have hsize : more.size = min (capacity - r.buffer.size) (content.size - r.offset) := by
    rw [Bytes.size_take, Bytes.size_drop]
  have hfill : r.fill d location = .ok
      { buffer := r.buffer ++ more, offset := r.offset + more.size, ended := more.isEmpty } := by
    rw [fill, Disk.read_of_file hfile]
    rfl
  have hleft : r.buffer ++ more ++ content.drop (r.offset + more.size) = left := by
    rw [← Bytes.drop_drop, Bytes.drop_size_take, ByteArray.append_assoc, Bytes.take_append_drop]
    exact h.left_eq
  cases hempty : more.isEmpty with
  | true =>
    have hmore : more = .empty := Bytes.eq_empty_of_isEmpty hempty
    have hzero : more.size = 0 := by rw [hmore]; rfl
    refine ⟨_, hfill, ⟨hleft, fun _ => ?_⟩, .inl ⟨hempty, ?_, ?_⟩⟩
    · show content.size ≤ r.offset + more.size
      omega
    · rw [hmore, ByteArray.append_empty]
    · rw [hzero, Nat.add_zero]
  | false =>
    have hpos : more.size ≠ 0 := by simpa [ByteArray.isEmpty] using hempty
    refine ⟨_, hfill, ⟨hleft, fun hended => ?_⟩, .inr ⟨hempty, ?_, ?_⟩⟩
    · cases hempty.symm.trans hended
    · rw [ByteArray.size_append]
      omega
    · show content.size - (r.offset + more.size) < content.size - r.offset
      omega

/-- When nothing more is needed to tell what a text begins with, its first character is complete. -/
theorem utf8Size_le {buffer beyond rest : Bytes} {c : Char}
    (h : buffer ++ beyond = Bytes.ofString (String.singleton c) ++ rest)
    (hmore : needsMore (buffer.take 4).toList = false) : c.utf8Size ≤ buffer.size := by
  rcases Nat.lt_or_ge buffer.size c.utf8Size with hless | hle
  · have hfour : c.utf8Size ≤ 4 := c.utf8Size_le_four
    have hlength : buffer.size ≤ (String.utf8EncodeChar c).length := by
      rw [String.length_utf8EncodeChar]
      omega
    have hlists := congrArg (fun b => (Bytes.toList b).take buffer.size) h
    simp only [Bytes.toList_append, Bytes.toList_singleton] at hlists
    rw [← Bytes.length_toList, List.take_left, Bytes.length_toList,
      List.take_append_of_le_length hlength] at hlists
    have hall : (buffer.take 4).toList = buffer.toList := by
      rw [Bytes.toList_take, List.take_of_length_le]
      rw [Bytes.length_toList]
      omega
    rw [hall, hlists, needsMore_take c hless] at hmore
    cases hmore
  · exact hle

/-- To prepare changes nothing about what is left. With enough tries the first character of it is
read ahead as a whole. -/
theorem prepare_hasLeft (tries : Nat) (hfile : d.get? location = some (.file content))
    (h : r.HasLeft content left) :
    ∃ r', prepare d location tries r = .ok r' ∧ r'.HasLeft content left ∧
      ∀ c rest, left = Bytes.ofString (String.singleton c) ++ rest →
        (r.ended = true ∨ c.utf8Size ≤ r.buffer.size + tries) → c.utf8Size ≤ r'.buffer.size := by
  induction tries generalizing r with
  | zero =>
    refine ⟨r, rfl, h, fun c rest hc hsize => ?_⟩
    rcases hsize with hend | hsize
    · exact h.utf8Size_le hend hc
    · exact hsize
  | succ tries ih =>
    rw [prepare]
    split
    · next hgo =>
      simp only [Bool.and_eq_true, Bool.not_eq_true'] at hgo
      obtain ⟨hopen, hmore⟩ := hgo
      have hroom : r.buffer.size < capacity := by
        have hless := length_lt_of_needsMore hmore
        rw [Bytes.length_toList, Bytes.size_take] at hless
        unfold capacity
        omega
      obtain ⟨r₁, hfill, h₁, hstep⟩ := fill_hasLeft hfile h hroom
      obtain ⟨r', hprepare, h', hcomplete⟩ := ih h₁
      refine ⟨r', ?_, h', fun c rest hc hsize => hcomplete c rest hc ?_⟩
      · rw [hfill]
        exact hprepare
      · -- a reading that does not find the end adds a byte, which makes up for the try
        rcases hstep with ⟨hend, -⟩ | ⟨-, hgrows, -⟩
        · exact .inl hend
        · rcases hsize with hend | hsize
          · cases hopen.symm.trans hend
          · exact .inr (by omega)
    · next hstop =>
      refine ⟨r, rfl, h, fun c rest hc _ => ?_⟩
      cases hend : r.ended with
      | true => exact h.utf8Size_le hend hc
      | false =>
        have hmore : needsMore (r.buffer.take 4).toList = false := by simpa [hend] using hstop
        exact utf8Size_le (h.left_eq.trans hc) hmore

/-- The next character is taken as a whole. -/
theorem next_hasLeft (hfile : d.get? location = some (.file content)) {c : Char}
    (h : r.HasLeft content (Bytes.ofString (String.singleton c) ++ left)) :
    ∃ r', r.next d location = (.ok (some c), r') ∧ r'.HasLeft content left := by
  obtain ⟨r₁, hprepare, h₁, hcomplete⟩ := prepare_hasLeft 5 hfile h
  have hfour : c.utf8Size ≤ 4 := c.utf8Size_le_four
  have hsize : c.utf8Size ≤ r₁.buffer.size := hcomplete c left rfl (.inr (by omega))
  rw [← Bytes.size_singleton] at hsize
  obtain ⟨more, hbuffer, hleft⟩ := Bytes.append_eq_append h₁.left_eq hsize
  have hpos : 0 < r₁.buffer.size := by
    rw [hbuffer]
    exact Bytes.size_singleton_append_pos c more
  have hpiece : r₁.buffer.pieceAt 0 hpos = .char c := by
    simp only [hbuffer, Bytes.pieceAt_singleton_append]
  have hdrop : r₁.buffer.drop c.utf8Size = more := by
    rw [hbuffer, Bytes.drop_singleton_append]
  refine ⟨{ r₁ with buffer := more }, ?_, hleft.symm, h₁.sound⟩
  rw [next, hprepare]
  simp only [dif_pos hpos, hpiece, Text.Piece.shown, Text.Piece.width, hdrop]

/-- At the end there is no next character. -/
theorem next_empty (hfile : d.get? location = some (.file content))
    (h : r.HasLeft content .empty) :
    ∃ r', r.next d location = (.ok none, r') ∧ r'.HasLeft content .empty := by
  obtain ⟨r₁, hprepare, h₁, -⟩ := prepare_hasLeft 5 hfile h
  have hnone : ¬ 0 < r₁.buffer.size := by
    have hsize := congrArg ByteArray.size h₁.left_eq
    rw [ByteArray.size_append] at hsize
    have hzero : ByteArray.size .empty = 0 := rfl
    omega
  refine ⟨{ r₁ with ended := false }, ?_, h₁.reopen⟩
  rw [next, hprepare]
  exact dif_neg hnone

/-- Characters are taken one after the other, until there are no more. -/
theorem takeFrom_hasLeft (hfile : d.get? location = some (.file content)) {cs : List Char}
    (h : r.HasLeft content (Bytes.ofString (String.ofList cs))) (count : Nat) (text : Bytes) :
    ∃ r', takeFrom d location count r text =
        (.ok (text ++ Bytes.ofString (String.ofList (cs.take count))), r') ∧
      r'.HasLeft content (Bytes.ofString (String.ofList (cs.drop count))) := by
  induction count generalizing r cs text with
  | zero =>
    refine ⟨r, ?_, h⟩
    rw [takeFrom, List.take_zero]
    exact congrArg (fun b => (Except.ok b, r)) ByteArray.append_empty.symm
  | succ count ih =>
    cases cs with
    | nil =>
      obtain ⟨r', hnext, h'⟩ := next_empty hfile h
      refine ⟨r', ?_, h'⟩
      rw [takeFrom, hnext, List.take_nil]
      exact congrArg (fun b => (Except.ok b, r')) ByteArray.append_empty.symm
    | cons c cs =>
      rw [Bytes.ofString_cons] at h
      obtain ⟨r₁, hnext, h₁⟩ := next_hasLeft hfile h
      obtain ⟨r', htake, h'⟩ := ih h₁ (text ++ Bytes.ofString (String.singleton c))
      refine ⟨r', ?_, h'⟩
      rw [takeFrom, hnext]
      simp only [htake, List.take_succ_cons, Bytes.ofString_cons, ByteArray.append_assoc]

theorem take_hasLeft (hfile : d.get? location = some (.file content)) {cs : List Char}
    (h : r.HasLeft content (Bytes.ofString (String.ofList cs))) (count : Nat) :
    ∃ r', r.take d location count = (.ok (Bytes.ofString (String.ofList (cs.take count))), r') ∧
      r'.HasLeft content (Bytes.ofString (String.ofList (cs.drop count))) := by
  obtain ⟨r', htake, h'⟩ := takeFrom_hasLeft hfile h count .empty
  rw [ByteArray.empty_append] at htake
  exact ⟨r', htake, h'⟩

/-- The rest is everything that is left. -/
theorem rest_hasLeft (hfile : d.get? location = some (.file content))
    (h : r.HasLeft content left) :
    ∃ r', r.rest d location = (.ok left, r') ∧ r'.HasLeft content .empty := by
  rw [rest]
  cases hended : r.ended with
  | true =>
    refine ⟨{ r with buffer := .empty, ended := false }, ?_, ?_, nofun⟩
    · rw [if_pos rfl, h.eq_buffer hended]
    · rw [Bytes.drop_of_size_le (h.sound hended), ByteArray.append_empty]
  | false =>
    have hall : (content.drop r.offset).take content.size = content.drop r.offset := by
      apply Bytes.eq_of_toList
      rw [Bytes.toList_take, List.take_of_length_le]
      rw [Bytes.length_toList, Bytes.size_drop]
      exact Nat.sub_le _ _
    refine ⟨{ r with buffer := .empty, offset := r.offset + (content.drop r.offset).size },
      ?_, ?_, ?_⟩
    · rw [if_neg Bool.false_ne_true, Disk.read_of_file hfile, Disk.size_of_file hfile, hall]
      simp only [h.left_eq, hended]
    · have hbeyond : content.size ≤ r.offset + (content.drop r.offset).size := by
        rw [Bytes.size_drop]
        omega
      simp only [Bytes.drop_of_size_le hbeyond, ByteArray.append_empty]
    · exact fun hend => absurd (hended.symm.trans hend) Bool.false_ne_true

/-- To ask for the end takes nothing, and the answer tells whether anything is left. -/
theorem atEnd_hasLeft (hfile : d.get? location = some (.file content))
    (h : r.HasLeft content left) :
    ∃ r', r.atEnd d location = (.ok left.isEmpty, r') ∧ r'.HasLeft content left := by
  have hsome {r : Reader} (h : r.HasLeft content left) (hbuffer : r.buffer.size ≠ 0) :
      left.isEmpty = false := by
    rw [← h.left_eq, ByteArray.isEmpty, beq_eq_false_iff_ne, ByteArray.size_append]
    omega
  rw [atEnd]
  cases hbuffer : r.buffer.isEmpty with
  | false =>
    rw [ByteArray.isEmpty, beq_eq_false_iff_ne] at hbuffer
    exact ⟨r, by rw [hsome h hbuffer]; rfl, h⟩
  | true =>
    have hempty : r.buffer = .empty := Bytes.eq_empty_of_isEmpty hbuffer
    cases hended : r.ended with
    | true =>
      refine ⟨{ r with ended := false }, ?_, h.reopen⟩
      rw [h.eq_buffer hended, hbuffer]
      rfl
    | false =>
      have hroom : r.buffer.size < capacity := by
        rw [hempty]
        decide
      obtain ⟨r', hfill, h', hstep⟩ := fill_hasLeft hfile h hroom
      have hanswer : left.isEmpty = r'.ended := by
        rcases hstep with ⟨hend, hsame, -⟩ | ⟨hend, hgrows, -⟩
        · rw [h'.eq_buffer hend, hsame, hbuffer, hend]
        · rw [hsome h' (by omega), hend]
      refine ⟨{ r' with ended := false }, ?_, h'.reopen⟩
      rw [hfill, hanswer]
      rfl

/-! ## Lines -/

/-- What a line feed ends, with the line feed, or else all that was left. -/
def IsLine (text left : Bytes) : Prop :=
  (∃ line : Bytes, 0x0a ∉ line.toList ∧ text = line ++ Bytes.ofString "\n") ∨
    0x0a ∉ text.toList ∧ left = .empty

/-- What comes before a line without a line feed belongs to the line. -/
theorem IsLine.append {text left before : Bytes} (h : IsLine text left)
    (hfree : 0x0a ∉ before.toList) : IsLine (before ++ text) left := by
  rcases h with ⟨line, hline, rfl⟩ | ⟨htext, hleft⟩
  · refine .inl ⟨before ++ line, ?_, ByteArray.append_assoc.symm⟩
    rw [Bytes.toList_append, List.mem_append]
    exact fun hmem => hmem.elim hfree hline
  · refine .inr ⟨?_, hleft⟩
    rw [Bytes.toList_append, List.mem_append]
    exact fun hmem => hmem.elim hfree htext

/-- How many steps are enough to take a line: one for each byte that a reading can add, one for each
time the buffer is emptied after it, and one for a reading that finds the end. -/
def steps (content : Bytes) (r : Reader) : Nat :=
  2 * (content.size - r.offset) + (if capacity ≤ r.buffer.size then 1 else 0) +
    (if r.ended then 0 else 1)

theorem steps_emptied (content : Bytes) (hfull : capacity ≤ r.buffer.size) :
    steps content { r with buffer := .empty } < steps content r := by
  have hroom : ¬ capacity ≤ ByteArray.size .empty := by decide
  simp only [steps, if_pos hfull, if_neg hroom]
  omega

theorem Filled.steps_lt {r' : Reader} (h : r.Filled content r') (hroom : ¬ capacity ≤ r.buffer.size)
    (hopen : r.ended = false) : steps content r' < steps content r := by
  simp only [steps, if_neg hroom, hopen, Bool.false_eq_true, if_false]
  rcases h with ⟨hend, hsame, hoffset⟩ | ⟨hend, -, hcloser⟩
  · rw [hend, hsame, hoffset, if_neg hroom, if_pos rfl]
    omega
  · rw [hend, if_neg Bool.false_ne_true]
    split_ifs <;> omega

/-- A line is taken as a whole, however many times the buffer is emptied on the way. -/
theorem lineFrom_hasLeft (hfile : d.get? location = some (.file content)) {fuel : Nat}
    (h : r.HasLeft content left) (hfuel : steps content r < fuel) (line : Bytes) :
    ∃ text left' r', lineFrom d location fuel r line = (.ok (line ++ text), r') ∧
      r'.HasLeft content left' ∧ left = text ++ left' ∧ IsLine text left' := by
  induction fuel generalizing r left line with
  | zero => omega
  | succ fuel ih =>
    rw [lineFrom]
    obtain ⟨before, after, hfree, hbuffer, hindex⟩ | ⟨hfree, hindex⟩ := r.buffer.indexOf?_cases 0x0a
    · -- the line ends within what was read ahead
      have htext : r.buffer.take (before.length + 1) =
          Bytes.ofList before ++ Bytes.ofString "\n" := by
        apply Bytes.eq_of_toList
        rw [Bytes.toList_take, hbuffer, Bytes.toList_append, Bytes.toList_ofList, List.take_append,
          List.take_of_length_le (Nat.le_add_right _ _), Nat.add_sub_cancel_left]
        rfl
      refine ⟨r.buffer.take (before.length + 1),
        r.buffer.drop (before.length + 1) ++ content.drop r.offset,
        { r with buffer := r.buffer.drop (before.length + 1) }, ?_, ⟨rfl, h.sound⟩, ?_,
        .inl ⟨Bytes.ofList before, hfree, htext⟩⟩
      · rw [hindex]
      · rw [← ByteArray.append_assoc, Bytes.take_append_drop]
        exact h.left_eq.symm
    · rw [hindex]
      cases hended : r.ended with
      | true =>
        refine ⟨r.buffer, .empty, { r with buffer := .empty, ended := false }, rfl, ⟨?_, nofun⟩, ?_,
          .inr ⟨hfree, rfl⟩⟩
        · rw [Bytes.drop_of_size_le (h.sound hended), ByteArray.append_empty]
        · rw [h.eq_buffer hended, ByteArray.append_empty]
      | false =>
        by_cases hfull : capacity ≤ r.buffer.size
        · -- the buffer is full of the line and is set aside
          have hleft : HasLeft content { r with buffer := .empty } (content.drop r.offset) :=
            ⟨ByteArray.empty_append, h.sound⟩
          have hsteps := steps_emptied content hfull
          obtain ⟨text, left', r', hline, h', hsplit, hisLine⟩ :=
            ih hleft (by omega) (line ++ r.buffer)
          refine ⟨r.buffer ++ text, left', r', ?_, h', ?_, hisLine.append hfree⟩
          · rw [ByteArray.append_assoc] at hline
            simp only [Bool.false_eq_true, if_false, if_pos hfull]
            rw [← hended]
            exact hline
          · rw [← h.left_eq, hsplit, ByteArray.append_assoc]
        · obtain ⟨r₁, hfill, h₁, hfilled⟩ := fill_hasLeft hfile h (Nat.lt_of_not_le hfull)
          have hsteps := hfilled.steps_lt hfull hended
          obtain ⟨text, left', r', hline, h', hsplit, hisLine⟩ := ih h₁ (by omega) line
          refine ⟨text, left', r', ?_, h', hsplit, hisLine⟩
          simp only [Bool.false_eq_true, if_false, if_neg hfull, hfill]
          exact hline

/-- How a line ends: with a line feed, or at the end of the file. A carriage return before that
belongs to the ending. -/
def IsEnding (text ending left : Bytes) : Prop :=
  (ending = Bytes.ofString "\r\n" ∨
      ending = Bytes.ofString "\n" ∧ text.toList.getLast? ≠ some 0x0d) ∨
    left = .empty ∧
      (ending = Bytes.ofString "\r" ∨ ending = .empty ∧ text.toList.getLast? ≠ some 0x0d)

/-- A line is its text and its ending. -/
theorem IsLine.chomp {text left : Bytes} (h : IsLine text left) :
    ∃ ending, text = text.chomp ++ ending ∧ 0x0a ∉ text.chomp.toList ∧
      IsEnding text.chomp ending left := by
  have hreturn (b : Bytes) : b.dropLastIf 0x0d = b ∧ b.toList.getLast? ≠ some 0x0d ∨
      ∃ front, b = front ++ Bytes.ofString "\r" ∧ b.dropLastIf 0x0d = front := by
    by_cases hlast : b.toList.getLast? = some 0x0d
    · obtain ⟨front, rfl⟩ := Bytes.exists_append_of_getLast? hlast
      exact .inr ⟨front, rfl, Bytes.dropLastIf_append front 0x0d⟩
    · exact .inl ⟨Bytes.dropLastIf_of_ne hlast, hlast⟩
  have hfront {front : Bytes} (hfree : 0x0a ∉ (front ++ Bytes.ofString "\r").toList) :
      0x0a ∉ front.toList := by
    rw [Bytes.toList_append, List.mem_append] at hfree
    exact fun hmem => hfree (.inl hmem)
  rcases h with ⟨line, hfree, rfl⟩ | ⟨hfree, hleft⟩
  · have hline : (line ++ Bytes.ofString "\n").dropLastIf 0x0a = line :=
      Bytes.dropLastIf_append line 0x0a
    rw [Bytes.chomp, hline]
    rcases hreturn line with ⟨hsame, hlast⟩ | ⟨front, rfl, hdrop⟩
    · rw [hsame]
      exact ⟨Bytes.ofString "\n", rfl, hfree, .inl (.inr ⟨rfl, hlast⟩)⟩
    · rw [hdrop]
      exact ⟨Bytes.ofString "\r\n", ByteArray.append_assoc, hfront hfree, .inl (.inl rfl)⟩
  · have hlast : text.toList.getLast? ≠ some 0x0a := fun hlast =>
      hfree (List.mem_of_getLast? hlast)
    rw [Bytes.chomp, Bytes.dropLastIf_of_ne hlast]
    rcases hreturn text with ⟨hsame, hlast⟩ | ⟨front, rfl, hdrop⟩
    · rw [hsame]
      exact ⟨.empty, ByteArray.append_empty.symm, hfree, .inr ⟨hleft, .inr ⟨rfl, hlast⟩⟩⟩
    · rw [hdrop]
      exact ⟨Bytes.ofString "\r", rfl, hfront hfree, .inr ⟨hleft, .inl rfl⟩⟩

/-- A line is taken with its ending, and without it handed out. -/
theorem line_hasLeft (hfile : d.get? location = some (.file content)) {cs : List Char}
    (h : r.HasLeft content (Bytes.ofString (String.ofList cs))) :
    ∃ text ending rest r', r.line d location = (.ok text, r') ∧
      r'.HasLeft content (Bytes.ofString (String.ofList rest)) ∧
      Bytes.ofString (String.ofList cs) = text ++ ending ++ Bytes.ofString (String.ofList rest) ∧
      0x0a ∉ text.toList ∧ IsEnding text ending (Bytes.ofString (String.ofList rest)) := by
  have hfuel : steps content r < 2 * d.size location + 4 := by
    rw [Disk.size_of_file hfile]
    unfold steps
    split_ifs <;> omega
  obtain ⟨line, left', r', htake, h', hsplit, hline⟩ := lineFrom_hasLeft hfile h hfuel .empty
  obtain ⟨ending, hparts, hfree, hending⟩ := hline.chomp
  obtain ⟨rest, rfl⟩ : ∃ rest, left' = Bytes.ofString (String.ofList rest) := by
    rcases hline with ⟨_, -, rfl⟩ | ⟨-, rfl⟩
    · exact Bytes.exists_ofString_of_newline hsplit
    · exact ⟨[], rfl⟩
  refine ⟨line.chomp, ending, rest, r', ?_, h', ?_, hfree, hending⟩
  · rw [ByteArray.empty_append] at htake
    rw [Reader.line, htake]
    rfl
  · rw [← hparts]
    exact hsplit

end Kotoba.File.Reader
