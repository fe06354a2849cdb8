import Kotoba.Proofs.File.Operation
import Kotoba.Proofs.File.Reader

/-! Reading a file. Whatever is read comes from what the file has left, and nothing is lost or read
twice. -/
namespace Kotoba.File.Handle

variable {h h' : Handle} {d d' : Disk} {cs : List Char}

/-- An open file that is read and has characters left. -/
def Reads (h : Handle) (d : Disk) (left : List Char) : Prop :=
  h.closed = false ∧ ∃ r content, h.stream = .reader r ∧
    d.get? h.location = some (.file content) ∧
    r.HasLeft content (Bytes.ofString (String.ofList left))

/-- A reply answers a request and accounts for what was `taken`, so that `left` is left. -/
inductive Answers : Request → Reply → (taken left : Bytes) → Prop
  | rest {text : Bytes} : Answers (.read none) (.text text) text .empty
  | full {text left : Bytes} {count : Nat} (all : text.length = count) :
    Answers (.read (some count)) (.text text) text left
  | short {text : Bytes} {count : Nat} (fewer : text.length < count) :
    Answers (.read (some count)) (.text text) text .empty
  | line {text ending left : Bytes} (free : 0x0a ∉ text.toList)
    (ends : Reader.IsEnding text ending left) :
    Answers .readLine (.text text) (text ++ ending) left
  | atEnd {left : Bytes} : Answers .atEnd (.flag left.isEmpty) .empty left

theorem answers_read (cs : List Char) (count : Nat) :
    Answers (.read (some count)) (.text (Bytes.ofString (String.ofList (cs.take count))))
      (Bytes.ofString (String.ofList (cs.take count)))
      (Bytes.ofString (String.ofList (cs.drop count))) := by
  have hlength := Bytes.length_ofString (cs.take count)
  rw [List.length_take] at hlength
  rcases Nat.lt_or_ge cs.length count with hless | hle
  · rw [List.drop_eq_nil_of_le (Nat.le_of_lt hless)]
    exact .short (by omega)
  · exact .full (by omega)

/-- What is taken from the reader of an open file is handed out. -/
theorem Reads.reading {α : Type} (take : Disk.Location → Reader → Except Disk.Refusal α × Reader)
    {r r' : Reader} {content : Bytes} {a : α} {rest : List Char} (hopen : h.closed = false)
    (hstream : h.stream = .reader r) (hfile : d.get? h.location = some (.file content))
    (htake : take h.location r = (.ok a, r'))
    (hleft : r'.HasLeft content (Bytes.ofString (String.ofList rest))) :
    ∃ h', h.reading take = (.ok a, h') ∧ h'.Reads d rest := by
  refine ⟨{ h with stream := .reader r' }, ?_, hopen, r', content, rfl, hfile, hleft⟩
  simp [Handle.reading, hopen, hstream, htake, Except.mapError]

/-- The rest of a file is all that is left. -/
theorem Reads.rest (hr : h.Reads d cs) :
    ∃ h', h.read d none = (.ok (Bytes.ofString (String.ofList cs)), h') ∧ h'.Reads d [] := by
  obtain ⟨hopen, r, content, hstream, hfile, hleft⟩ := hr
  obtain ⟨r', htake, hleft'⟩ := Reader.rest_hasLeft hfile hleft
  exact Reads.reading (fun location r => r.rest d location) hopen hstream hfile htake hleft'

/-- Every request is answered out of what is left. -/
theorem Reads.serve (hr : h.Reads d cs) (request : Request) :
    ∃ reply h' taken rest, h.serve d request = (.ok reply, h') ∧ h'.Reads d rest ∧
      Bytes.ofString (String.ofList cs) = taken ++ Bytes.ofString (String.ofList rest) ∧
      Answers request reply taken (Bytes.ofString (String.ofList rest)) := by
  have hrest := hr.rest
  obtain ⟨hopen, r, content, hstream, hfile, hleft⟩ := hr
  cases request with
  | read count =>
    cases count with
    | none =>
      obtain ⟨h', hread, hreads⟩ := hrest
      refine ⟨.text _, h', _, [], ?_, hreads, ByteArray.append_empty.symm, .rest⟩
      rw [Handle.serve, hread]
      rfl
    | some count =>
      obtain ⟨r', htake, hleft'⟩ := Reader.take_hasLeft hfile hleft count
      obtain ⟨h', hread, hreads⟩ := Reads.reading (fun location r => r.take d location count) hopen
        hstream hfile htake hleft'
      refine ⟨.text _, h', _, cs.drop count, ?_, hreads, ?_, answers_read cs count⟩
      · rw [Handle.serve, Handle.read, hread]
        rfl
      · rw [← Bytes.ofString_append, ← String.ofList_append, List.take_append_drop]
  | readLine =>
    obtain ⟨text, ending, rest, r', htake, hleft', hsplit, hfree, hending⟩ :=
      Reader.line_hasLeft hfile hleft
    obtain ⟨h', hread, hreads⟩ := Reads.reading (fun location r => r.line d location) hopen hstream
      hfile htake hleft'
    refine ⟨.text text, h', text ++ ending, rest, ?_, hreads, hsplit, .line hfree hending⟩
    rw [Handle.serve, Handle.readLine, hread]
    rfl
  | atEnd =>
    obtain ⟨r', htake, hleft'⟩ := Reader.atEnd_hasLeft hfile hleft
    obtain ⟨h', hread, hreads⟩ := Reads.reading (fun location r => r.atEnd d location) hopen hstream
      hfile htake hleft'
    refine ⟨.flag _, h', .empty, cs, ?_, hreads, ByteArray.empty_append.symm, .atEnd⟩
    rw [Handle.serve, Handle.atEnd, hread]
    rfl

/-- What a disk holds elsewhere makes no difference. -/
theorem Reads.elsewhere (hr : h.Reads d cs) (hsame : d'.get? h.location = d.get? h.location) :
    h.Reads d' cs := by
  obtain ⟨hopen, r, content, hstream, hfile, hleft⟩ := hr
  exact ⟨hopen, r, content, hstream, hsame.trans hfile, hleft⟩

/-- Requests are made of a file one after the other, and each gets its reply. In between the disk
may change, but not where the file is. -/
inductive Served : Handle → Disk → List Request → List Reply → Handle → Disk → Prop
  | done {h : Handle} {d : Disk} : Served h d [] [] h d
  | serve {h h₁ h' : Handle} {d d' : Disk} {request : Request} {requests : List Request}
    {reply : Reply} {replies : List Reply} (hserve : h.serve d request = (.ok reply, h₁))
    (hrest : Served h₁ d requests replies h' d') :
    Served h d (request :: requests) (reply :: replies) h' d'
  | elsewhere {h h' : Handle} {d d₁ d' : Disk} {requests : List Request} {replies : List Reply}
    (hsame : d₁.get? h.location = d.get? h.location)
    (hrest : Served h d₁ requests replies h' d') : Served h d requests replies h' d'

/-- The replies to requests account for a text up to what is left of it: each reply answers its
request with the next part of the text. -/
inductive Accounts : List Request → List Reply → (text left : Bytes) → Prop
  | done {left : Bytes} : Accounts [] [] left left
  | next {request : Request} {requests : List Request} {reply : Reply} {replies : List Reply}
    {taken rest left : Bytes} (answers : Answers request reply taken rest)
    (others : Accounts requests replies rest left) :
    Accounts (request :: requests) (reply :: replies) (taken ++ rest) left

theorem Served.accounts {requests : List Request} {replies : List Reply}
    (hserved : Served h d requests replies h' d') (hr : h.Reads d cs) :
    ∃ rest, h'.Reads d' rest ∧ Accounts requests replies (Bytes.ofString (String.ofList cs))
      (Bytes.ofString (String.ofList rest)) := by
  induction hserved generalizing cs with
  | done => exact ⟨cs, hr, .done⟩
  | serve hserve _ ih =>
    obtain ⟨reply, h₁, taken, rest, hserve₁, hr₁, hsplit, hanswers⟩ := hr.serve _
    rw [hserve₁] at hserve
    cases hserve
    obtain ⟨rest', hr', haccounts⟩ := ih hr₁
    refine ⟨rest', hr', ?_⟩
    rw [hsplit]
    exact .next hanswers haccounts
  | elsewhere hsame _ ih => exact ih (hr.elsewhere hsame)

theorem openAt_reads {disk opened : Disk} {path : Bytes} {text : String}
    (hopen : openAt disk path (Bytes.ofString Mode.read.text) = .ok (h, opened))
    (hfile : disk.get? h.location = some (.file (Bytes.ofString text))) :
    h.Reads opened text.toList := by
  simp only [openAt, Mode.ofText?_text] at hopen
  cases hfind : disk.find path with
  | error refusal => simp [hfind] at hopen
  | ok found =>
    simp only [hfind] at hopen
    cases hopen
    refine ⟨rfl, {}, _, rfl, hfile, ?_, nofun⟩
    rw [String.ofList_toList]
    exact ByteArray.empty_append.trans (Bytes.drop_zero _)

/-- Reads lose and repeat nothing. After any requests to a file with a text as its content, every
further request is answered, and the replies account for all of the text up to what reading the rest
yields. -/
theorem reads_complete {disk opened d : Disk} {path : Bytes} {text : String} {h₀ h : Handle}
    {requests : List Request} {replies : List Reply}
    (hopen : openAt disk path (Bytes.ofString Mode.read.text) = .ok (h₀, opened))
    (hfile : disk.get? h₀.location = some (.file (Bytes.ofString text)))
    (hserved : Served h₀ opened requests replies h d) :
    (∀ request, ∃ reply h', h.serve d request = (.ok reply, h')) ∧
      ∃ rest h', h.read d none = (.ok rest, h') ∧
        Accounts requests replies (Bytes.ofString text) rest := by
  obtain ⟨left, hreads, haccounts⟩ := hserved.accounts (openAt_reads hopen hfile)
  rw [String.ofList_toList] at haccounts
  constructor
  · intro request
    obtain ⟨reply, h', -, -, hserve, -⟩ := hreads.serve request
    exact ⟨reply, h', hserve⟩
  · obtain ⟨h', hread, -⟩ := hreads.rest
    exact ⟨_, h', hread, haccounts⟩

/-- A character of two bytes, a line that ends with a carriage return and a line feed, and a last
line that does not end. -/
theorem reads_complete_notes :
    let disk : Disk := { entries := [([Bytes.ofString "notes"], .file "né\r\nlast")] }
    let requests : List Request := [.read (some 1), .readLine, .atEnd, .read (some 1)]
    let replies : List Reply := [.text "n", .text "é", .flag false, .text "l"]
    ∃ h₀ opened h d h',
      openAt disk "notes" (Bytes.ofString Mode.read.text) = .ok (h₀, opened) ∧
      Served h₀ opened requests replies h d ∧ h.read d none = (.ok "ast", h') ∧
      Accounts requests replies (Bytes.ofString "né\r\nlast") "ast" := by
  intro disk requests replies
  -- the handle when some of the file was read ahead and is still to be handed out
  let handle (buffer : Bytes) (offset : Nat) : Handle :=
    { path := "notes", location := [Bytes.ofString "notes"], stream := .reader { buffer, offset } }
  have hopen : openAt disk "notes" (Bytes.ofString Mode.read.text) =
      .ok (handle .empty 0, disk) := by rfl
  have hread : (handle .empty 0).serve disk (.read (some 1)) =
      (.ok (.text "n"), handle "é\r\nlast" 9) := by rfl
  have hline : (handle "é\r\nlast" 9).serve disk .readLine =
      (.ok (.text "é"), handle "last" 9) := by rfl
  have hend : (handle "last" 9).serve disk .atEnd = (.ok (.flag false), handle "last" 9) := by rfl
  have hagain : (handle "last" 9).serve disk (.read (some 1)) =
      (.ok (.text "l"), handle "ast" 9) := by rfl
  have hserved : Served (handle .empty 0) disk requests replies (handle "ast" 9) disk :=
    .serve hread (.serve hline (.serve hend (.serve hagain .done)))
  have hfile : disk.get? [Bytes.ofString "notes"] = some (.file (Bytes.ofString "né\r\nlast")) := by
    rfl
  have hrest : (handle "ast" 9).read disk none = (.ok "ast", handle .empty 9) := by rfl
  obtain ⟨-, rest, h', hrest', haccounts⟩ := reads_complete hopen hfile hserved
  cases hrest.symm.trans hrest'
  exact ⟨_, _, _, _, _, hopen, hserved, hrest, haccounts⟩

end Kotoba.File.Handle
