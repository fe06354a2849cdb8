import Kotoba.File.Handle

/-! What a program can ask of an open file, and what is refused. -/
namespace Kotoba.File

/-- What can be asked of a file that is read. -/
inductive Request where
  /-- Up to `count` characters, or the rest of the file if no count is given. -/
  | read (count : Option Nat)
  | readLine
  | atEnd

/-- An answer to a request. -/
inductive Reply where
  | text (b : Bytes)
  | flag (b : Bool)

/-- What can be done with an open file. -/
inductive Operation where
  | ask (request : Request)
  | write (data : Bytes)
  | close

/-- A mode is told by its text. -/
theorem Mode.ofText?_text (mode : Mode) : ofText? (Bytes.ofString mode.text) = some mode := by
  cases mode <;> decide

namespace Handle

/-- Answers a request. -/
def serve (disk : Disk) (h : Handle) : Request → Except Fault Reply × Handle
  | .read count =>
    let (result, h) := h.read disk count
    (result.map .text, h)
  | .readLine =>
    let (result, h) := h.readLine disk
    (result.map .text, h)
  | .atEnd =>
    let (result, h) := h.atEnd disk
    (result.map .flag, h)

/-- Performs an operation, whatever it yields. -/
def perform (disk : Disk) (h : Handle) : Operation → Except Fault Unit × Handle × Disk
  | .ask request =>
    let (result, h) := h.serve disk request
    (result.map fun _ => (), h, disk)
  | .write data => h.write disk data
  | .close => h.close disk

/-- The operation fails with an error of the kind and changes neither the disk nor the file. -/
def Refuses (disk : Disk) (h : Handle) (kind : Diagnostic.Kind) (operation : Operation) : Prop :=
  ∃ fault, h.perform disk operation = (.error fault, h, disk) ∧ fault.kind = kind

/-- A closed file refuses everything. -/
theorem refuses_of_closed {h : Handle} (hclosed : h.closed = true) (disk : Disk)
    (operation : Operation) : h.Refuses disk .fileState operation := by
  cases operation with
  | ask request =>
    cases request <;>
      exact ⟨.closed h.path, by
        simp [perform, serve, read, readLine, atEnd, reading, hclosed, Except.map], rfl⟩
  | write data => exact ⟨.closed h.path, by simp [perform, write, hclosed], rfl⟩
  | close => exact ⟨.alreadyClosed h.path, by simp [perform, close, hclosed], rfl⟩

/-- An open file that is written refuses to be read. -/
theorem refuses_of_writer {h : Handle} {w : Writer} (hopen : h.closed = false)
    (hwriter : h.stream = .writer w) (disk : Disk) (request : Request) :
    h.Refuses disk .fileMode (.ask request) := by
  refine ⟨.notReadable h.path h.mode, ?_, rfl⟩
  cases request <;>
    simp [perform, serve, read, readLine, atEnd, reading, hopen, hwriter, Except.map]

end Handle

end Kotoba.File
