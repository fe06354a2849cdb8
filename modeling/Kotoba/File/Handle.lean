import Kotoba.Diagnostic.Basic
import Kotoba.File.Stream
import Kotoba.Text.Quoted

/-! Open files as a program sees them. -/
namespace Kotoba.File

inductive Mode where
  | read
  | write
  | append
deriving DecidableEq, Repr

namespace Mode

def text : Mode → String
  | read => "r"
  | write => "w"
  | append => "a"

def ofText? (s : Bytes) : Option Mode :=
  [read, write, append].find? fun mode => s == Bytes.ofString mode.text

end Mode

inductive Fault where
  | badMode (mode : Bytes)
  | alreadyClosed (path : Bytes)
  | closed (path : Bytes)
  | notReadable (path : Bytes) (mode : Mode)
  | notWritable (path : Bytes) (mode : Mode)
  /-- The disk refused what was needed to `action` the file. -/
  | refused (action : String) (path : Bytes) (cause : Disk.Failure)

namespace Fault

def kind : Fault → Diagnostic.Kind
  | badMode _ | notReadable _ _ | notWritable _ _ => .fileMode
  | alreadyClosed _ | closed _ => .fileState
  | refused _ _ _ => .fileFailure

def message : Fault → Bytes
  | badMode mode => "invalid file mode " ++ Text.quote mode ++ " (want r, w, or a)"
  | alreadyClosed path => "file " ++ Text.quote path ++ " is already closed"
  | closed path => "file " ++ Text.quote path ++ " is closed"
  | notReadable path mode =>
    "file " ++ Text.quote path ++ " is not open for reading (mode " ++ Text.quoteString mode.text ++
      ")"
  | notWritable path mode =>
    "file " ++ Text.quote path ++ " is not open for writing (mode " ++ Text.quoteString mode.text ++
      ")"
  | refused action path _ => Bytes.ofString ("cannot " ++ action ++ " ") ++ Text.quote path

def cause? : Fault → Option Bytes
  | refused _ _ cause => some cause.text
  | _ => none

def diagnostic (f : Fault) : Diagnostic where
  stage := .runtime
  kind := some f.kind
  message := f.message
  cause := f.cause?

end Fault

inductive Stream where
  | reader (r : Reader)
  | writer (w : Writer)

def Stream.mode : Stream → Mode
  | reader _ => .read
  | writer w => if w.appending then .append else .write

structure Handle where
  path : Bytes
  location : Disk.Location
  stream : Stream
  closed : Bool := false

namespace Handle

def mode (h : Handle) : Mode := h.stream.mode

/-- Written `<file path mode=m open>`. -/
def text (h : Handle) : Bytes :=
  "<file " ++ h.path ++ Bytes.ofString (" mode=" ++ h.mode.text ++
    (if h.closed then " closed>" else " open>"))

/-- Opens the file at `path`. Writing starts with an empty file; appending keeps what is there. -/
def openAt (disk : Disk) (path mode : Bytes) : Except Fault (Handle × Disk) :=
  let refused (refusal : Disk.Refusal) := Fault.refused "open" path ⟨"open", path, refusal⟩
  match Mode.ofText? mode with
  | none => .error (.badMode mode)
  | some .read =>
    match disk.find path with
    | .error refusal => .error (refused refusal)
    | .ok (location, _) => .ok ({ path, location, stream := .reader {} }, disk)
  | some .write =>
    match disk.target path with
    | .error refusal => .error (refused refusal)
    | .ok location =>
      .ok ({ path, location, stream := .writer { appending := false } }, disk.truncate location)
  | some .append =>
    match disk.target path with
    | .error refusal => .error (refused refusal)
    | .ok location =>
      .ok ({ path, location, stream := .writer { appending := true } }, disk.ensure location)

def reading {α : Type} (h : Handle)
    (take : Disk.Location → Reader → Except Disk.Refusal α × Reader) : Except Fault α × Handle :=
  if h.closed then (.error (.closed h.path), h)
  else match h.stream with
    | .writer _ => (.error (.notReadable h.path h.mode), h)
    | .reader r =>
      let (result, r) := take h.location r
      (result.mapError fun refusal => .refused "read" h.path ⟨"read", h.path, refusal⟩,
        { h with stream := .reader r })

def read (disk : Disk) (count : Option Nat) (h : Handle) : Except Fault Bytes × Handle :=
  h.reading fun location r =>
    match count with
    | none => r.rest disk location
    | some count => r.take disk location count

def readLine (disk : Disk) (h : Handle) : Except Fault Bytes × Handle :=
  h.reading fun location r => r.line disk location

def atEnd (disk : Disk) (h : Handle) : Except Fault Bool × Handle :=
  h.reading fun location r => r.atEnd disk location

/-- Writes `data`; some of it may be held back. -/
def write (disk : Disk) (data : Bytes) (h : Handle) : Except Fault Unit × Handle × Disk :=
  if h.closed then (.error (.closed h.path), h, disk)
  else match h.stream with
    | .reader _ => (.error (.notWritable h.path h.mode), h, disk)
    | .writer w =>
      let (result, w, disk) := w.write disk h.location data
      (result.mapError fun refusal => .refused "write" h.path ⟨"write", h.path, refusal⟩,
        { h with stream := .writer w }, disk)

def close (disk : Disk) (h : Handle) : Except Fault Unit × Handle × Disk :=
  if h.closed then (.error (.alreadyClosed h.path), h, disk)
  else match h.stream with
    | .reader _ => (.ok (), { h with closed := true }, disk)
    | .writer w =>
      let (result, w, disk) := w.flush disk h.location
      (result.mapError fun refusal => .refused "close" h.path ⟨"write", h.path, refusal⟩,
        { h with stream := .writer w, closed := true }, disk)

end Handle

end Kotoba.File
