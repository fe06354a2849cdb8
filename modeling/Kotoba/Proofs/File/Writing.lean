import Kotoba.Proofs.File.Disk
import Kotoba.Proofs.File.Operation

/-! Writing to a file. What was written is on the disk or held back, all of it and in order, and
closing the file leaves nothing held back. -/
namespace Kotoba.File

namespace Writer

variable {w : Writer} {d : Disk} {location : Disk.Location} {sent : Bytes}

/-- A writer of a file that has `sent` as its content and was never refused anything. It goes on at
the end of the file. -/
structure Follows (w : Writer) (d : Disk) (location : Disk.Location) (sent : Bytes) : Prop where
  stands : d.get? location = some (.file sent)
  unrefused : w.refusal = none
  fits : w.buffer.size ≤ capacity
  place : w.appending = false → w.offset = sent.size

/-- What is sent comes after what the file held, and nothing else of the writer changes but its
place. -/
theorem send_follows (h : w.Follows d location sent) (data : Bytes) :
    ∃ w' d', w.send d location data = (.ok (), w', d') ∧ w'.Follows d' location (sent ++ data) ∧
      w'.buffer = w.buffer := by
  have hoffset : (if w.appending then d.size location else w.offset) = sent.size := by
    cases happending : w.appending with
    | true => exact Disk.size_of_file h.stands
    | false => exact h.place happending
  obtain ⟨d', hwrite, hstands⟩ := Disk.write_size h.stands data
  refine ⟨{ w with offset := sent.size + data.size }, d', ?_, ?_, rfl⟩
  · simp only [send, hoffset, hwrite]
  · exact ⟨hstands, h.unrefused, h.fits, fun _ => ByteArray.size_append.symm⟩

/-- What was held back comes next, and then nothing is held back. -/
theorem flush_follows (h : w.Follows d location sent) :
    ∃ w' d', w.flush d location = (.ok (), w', d') ∧
      w'.Follows d' location (sent ++ w.buffer) ∧ w'.buffer = .empty := by
  rw [flush, h.unrefused]
  cases hempty : w.buffer.isEmpty with
  | true =>
    have hbuffer : w.buffer = .empty := Bytes.eq_empty_of_isEmpty hempty
    refine ⟨w, d, rfl, ?_, hbuffer⟩
    rw [hbuffer, ByteArray.append_empty]
    exact h
  | false =>
    obtain ⟨w', d', hsend, hfollows, -⟩ := send_follows h w.buffer
    refine ⟨{ w' with buffer := .empty }, d', by simp [hsend], ?_, rfl⟩
    exact ⟨hfollows.stands, hfollows.unrefused, Nat.zero_le _, hfollows.place⟩

/-- Data taken with nothing held back comes next, on the disk or in the buffer. -/
theorem accept_follows (h : w.Follows d location sent) (hbuffer : w.buffer = .empty)
    (data : Bytes) :
    ∃ w' d' sent', w.accept d location data = (.ok (), w', d') ∧ w'.Follows d' location sent' ∧
      sent' ++ w'.buffer = sent ++ data := by
  rw [accept]
  by_cases hsize : data.size ≤ capacity
  · rw [if_pos hsize]
    exact ⟨{ w with buffer := data }, d, sent, rfl, ⟨h.stands, h.unrefused, hsize, h.place⟩, rfl⟩
  · obtain ⟨w', d', hsend, hfollows, hkeeps⟩ := send_follows h data
    rw [if_neg hsize]
    refine ⟨w', d', sent ++ data, hsend, hfollows, ?_⟩
    rw [hkeeps, hbuffer, ByteArray.append_empty]

/-- What is written comes after what was sent and held back before. -/
theorem write_follows (h : w.Follows d location sent) (data : Bytes) :
    ∃ w' d' sent', w.write d location data = (.ok (), w', d') ∧ w'.Follows d' location sent' ∧
      sent' ++ w'.buffer = sent ++ w.buffer ++ data := by
  unfold write
  split
  · next refusal hrefused => cases h.unrefused.symm.trans hrefused
  by_cases hroom : data.size ≤ capacity - w.buffer.size
  · have hfits : (w.buffer ++ data).size ≤ capacity := by
      have := h.fits
      rw [ByteArray.size_append]
      omega
    refine ⟨{ w with buffer := w.buffer ++ data }, d, sent, if_pos hroom, ?_, ?_⟩
    · exact ⟨h.stands, h.unrefused, hfits, h.place⟩
    · exact ByteArray.append_assoc.symm
  · simp only [if_neg hroom]
    cases hempty : w.buffer.isEmpty with
    | true =>
      have hbuffer : w.buffer = .empty := Bytes.eq_empty_of_isEmpty hempty
      rw [if_pos rfl, hbuffer, ByteArray.append_empty]
      exact accept_follows h hbuffer data
    | false =>
      -- the buffer is filled up before it is sent
      let filled := w.buffer ++ data.take (capacity - w.buffer.size)
      have hfull : filled.size ≤ capacity := by
        have := h.fits
        rw [ByteArray.size_append, Bytes.size_take]
        omega
      obtain ⟨w₁, d₁, hflush, hfollows₁, hbuffer₁⟩ := flush_follows
        (w := { w with buffer := filled }) ⟨h.stands, h.unrefused, hfull, h.place⟩
      obtain ⟨w', d', sent', haccept, hfollows, htext⟩ :=
        accept_follows hfollows₁ hbuffer₁ (data.drop (capacity - w.buffer.size))
      refine ⟨w', d', sent', ?_, hfollows, ?_⟩
      · rw [if_neg Bool.false_ne_true, hflush]
        exact haccept
      · calc sent' ++ w'.buffer
            = sent ++ filled ++ data.drop (capacity - w.buffer.size) := htext
          _ = sent ++ w.buffer ++ (data.take (capacity - w.buffer.size) ++
                data.drop (capacity - w.buffer.size)) := by
              simp only [filled, ByteArray.append_assoc]
          _ = sent ++ w.buffer ++ data := by rw [Bytes.take_append_drop]

end Writer

namespace Handle

variable {h h' : Handle} {d d' : Disk} {text : Bytes} {texts : List Bytes}

/-- An open file that is written, and what it has on the disk and held back makes up `text`. -/
def Writes (h : Handle) (d : Disk) (text : Bytes) : Prop :=
  h.closed = false ∧ ∃ w sent, h.stream = .writer w ∧ w.Follows d h.location sent ∧
    sent ++ w.buffer = text

/-- An open file takes whatever is written to it. -/
theorem Writes.write (hw : h.Writes d text) (data : Bytes) :
    ∃ h' d', h.write d data = (.ok (), h', d') ∧ h'.location = h.location ∧
      h'.Writes d' (text ++ data) := by
  obtain ⟨hopen, w, sent, hstream, hfollows, rfl⟩ := hw
  obtain ⟨w', d', sent', hwrite, hfollows', htext⟩ := Writer.write_follows hfollows data
  refine ⟨{ h with stream := .writer w' }, d', ?_, rfl, hopen, w', sent', rfl, hfollows', htext⟩
  simp [Handle.write, hopen, hstream, hwrite, Except.mapError]

/-- Closing a file sends all that was held back. -/
theorem Writes.close (hw : h.Writes d text) :
    ∃ h' d', h.close d = (.ok (), h', d') ∧ h'.closed = true ∧
      d'.get? h.location = some (.file text) := by
  obtain ⟨hopen, w, sent, hstream, hfollows, rfl⟩ := hw
  obtain ⟨w', d', hflush, hfollows', -⟩ := Writer.flush_follows hfollows
  refine ⟨{ h with stream := .writer w', closed := true }, d', ?_, rfl, hfollows'.stands⟩
  simp [Handle.close, hopen, hstream, hflush, Except.mapError]

/-- What a disk holds elsewhere makes no difference. -/
theorem Writes.elsewhere (hw : h.Writes d text) (hsame : d'.get? h.location = d.get? h.location) :
    h.Writes d' text := by
  obtain ⟨hopen, w, sent, hstream, hfollows, htext⟩ := hw
  refine ⟨hopen, w, sent, hstream, ?_, htext⟩
  exact ⟨hsame.trans hfollows.stands, hfollows.unrefused, hfollows.fits, hfollows.place⟩

/-- Texts are written to a file one after the other, and none is refused. In between the disk may
change, but not where the file is. -/
inductive Wrote : Handle → Disk → List Bytes → Handle → Disk → Prop
  | done {h : Handle} {d : Disk} : Wrote h d [] h d
  | write {h h₁ h' : Handle} {d d₁ d' : Disk} {data : Bytes} {texts : List Bytes}
    (hwrite : h.write d data = (.ok (), h₁, d₁)) (hrest : Wrote h₁ d₁ texts h' d') :
    Wrote h d (data :: texts) h' d'
  | elsewhere {h h' : Handle} {d d₁ d' : Disk} {texts : List Bytes}
    (hsame : d₁.get? h.location = d.get? h.location) (hrest : Wrote h d₁ texts h' d') :
    Wrote h d texts h' d'

/-- Texts that are written come after what was there before. -/
theorem Wrote.writes (hwrote : Wrote h d texts h' d') (hw : h.Writes d text) :
    h'.location = h.location ∧ h'.Writes d' (texts.foldl (· ++ ·) text) := by
  induction hwrote generalizing text with
  | done => exact ⟨rfl, hw⟩
  | write hwrite _ ih =>
    obtain ⟨h₁, d₁, hwrite₁, hlocation, hw₁⟩ := hw.write _
    rw [hwrite₁] at hwrite
    cases hwrite
    obtain ⟨hlocation', hw'⟩ := ih hw₁
    exact ⟨hlocation'.trans hlocation, hw'⟩
  | elsewhere hsame _ ih => exact ih (hw.elsewhere hsame)

/-- What a file starts with that is opened to be written: appending keeps what is there. -/
def initial (disk : Disk) (location : Disk.Location) : Mode → Bytes
  | .append => disk.content location
  | .read | .write => .empty

theorem openAt_writes {disk opened : Disk} {path : Bytes} {mode : Mode} (hmode : mode ≠ .read)
    (hopen : openAt disk path (Bytes.ofString mode.text) = .ok (h, opened))
    (hfile : ∀ entry, disk.get? h.location = some entry → entry.isDevice = false) :
    h.Writes opened (initial disk h.location mode) := by
  simp only [openAt, Mode.ofText?_text] at hopen
  cases mode with
  | read => exact absurd rfl hmode
  | write =>
    cases htarget : disk.target path with
    | error refusal => simp [htarget] at hopen
    | ok location =>
      simp only [htarget] at hopen
      cases hopen
      obtain ⟨hroot, -⟩ := Disk.target_ok htarget
      have hstands := Disk.get?_truncate hroot hfile
      exact ⟨rfl, _, _, rfl, ⟨hstands, rfl, Nat.zero_le _, fun _ => rfl⟩, rfl⟩
  | append =>
    cases htarget : disk.target path with
    | error refusal => simp [htarget] at hopen
    | ok location =>
      simp only [htarget] at hopen
      cases hopen
      obtain ⟨hroot, hplain⟩ := Disk.target_ok htarget
      have hstands := Disk.get?_ensure hroot hplain hfile
      exact ⟨rfl, _, _, rfl, ⟨hstands, rfl, Nat.zero_le _, nofun⟩, ByteArray.append_empty⟩

/-- Writes reach the disk complete and in order. After any texts were written to a file that is no
device, the disk holds what the file started with and then the texts, but for what is held back, at
most 4096 bytes. Any further text is taken, and closing the file sends the rest. The file cannot be
read, and once it is closed nothing can be done with it; what is refused changes nothing. -/
theorem writes_complete {disk opened d : Disk} {path : Bytes} {mode : Mode} {h₀ h : Handle}
    {texts : List Bytes} (hmode : mode ≠ .read)
    (hopen : openAt disk path (Bytes.ofString mode.text) = .ok (h₀, opened))
    (hfile : ∀ entry, disk.get? h₀.location = some entry → entry.isDevice = false)
    (hwrote : Wrote h₀ opened texts h d) :
    let text := texts.foldl (· ++ ·) (initial disk h₀.location mode)
    (∃ sent w, d.get? h₀.location = some (.file sent) ∧ h.stream = .writer w ∧
      sent ++ w.buffer = text ∧ w.buffer.size ≤ 4096) ∧
    (∀ data, ∃ h' d', h.write d data = (.ok (), h', d')) ∧
    (∀ request, h.Refuses d .fileMode (.ask request)) ∧
    ∃ closed d', h.close d = (.ok (), closed, d') ∧
      d'.get? h₀.location = some (.file text) ∧
      ∀ disk operation, closed.Refuses disk .fileState operation := by
  intro text
  obtain ⟨hlocation, hwrites⟩ := hwrote.writes (openAt_writes hmode hopen hfile)
  rw [← hlocation]
  refine ⟨?_, ?_, ?_, ?_⟩
  · obtain ⟨-, w, sent, hstream, hfollows, htext⟩ := hwrites
    exact ⟨sent, w, hfollows.stands, hstream, htext, hfollows.fits⟩
  · intro data
    obtain ⟨h', d', hwrite, -⟩ := hwrites.write data
    exact ⟨h', d', hwrite⟩
  · obtain ⟨hopen, w, -, hstream, -⟩ := hwrites
    exact refuses_of_writer hopen hstream d
  · obtain ⟨closed, d', hclose, hclosed, hstands⟩ := hwrites.close
    exact ⟨closed, d', hclose, hstands, refuses_of_closed hclosed⟩

/-- A text that is longer than what can be held back, written after what a file holds. -/
theorem writes_complete_notes :
    let disk : Disk := { entries := [([Bytes.ofString "notes"], .file "one")] }
    let long := Bytes.replicate 5000 "x"
    ∃ h₀ opened h d closed d',
      openAt disk "notes" (Bytes.ofString Mode.append.text) = .ok (h₀, opened) ∧
      Wrote h₀ opened [Bytes.ofString "two", long] h d ∧ h.close d = (.ok (), closed, d') ∧
      d'.get? [Bytes.ofString "notes"] = some (.file ("onetwo" ++ long)) := by
  intro disk long
  have hopen : openAt disk "notes" (Bytes.ofString Mode.append.text) =
      .ok ({ path := "notes", location := [Bytes.ofString "notes"],
             stream := .writer { appending := true } }, disk) := by rfl
  have hfile : ∀ entry, disk.get? [Bytes.ofString "notes"] = some entry →
      entry.isDevice = false := by
    intro entry hentry
    obtain rfl : Disk.Entry.file "one" = entry := Option.some.inj hentry
    rfl
  obtain ⟨-, hnext, -⟩ := writes_complete (by decide) hopen hfile .done
  obtain ⟨h₁, d₁, hwrite₁⟩ := hnext "two"
  obtain ⟨-, hnext, -⟩ := writes_complete (by decide) hopen hfile (.write hwrite₁ .done)
  obtain ⟨h₂, d₂, hwrite₂⟩ := hnext long
  have hwrote := Wrote.write hwrite₁ (.write hwrite₂ .done)
  obtain ⟨-, -, -, closed, d', hclose, hstands, -⟩ := writes_complete (by decide) hopen hfile hwrote
  exact ⟨_, _, h₂, d₂, closed, d', hopen, hwrote, hclose, hstands⟩

end Handle

end Kotoba.File
