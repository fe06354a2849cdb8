import Kotoba.File.Disk
import Kotoba.Text.Utf8

/-! Buffered reading and writing of the file at a location. -/
namespace Kotoba.File

def capacity : Nat := 4096

/-- A reader: bytes read ahead, how far the file has been read, and whether its end was met while
bytes were still to be handed out. -/
structure Reader where
  buffer : Bytes := .empty
  offset : Nat := 0
  ended : Bool := false

namespace Reader

def secondRange (lead : UInt8) : UInt8 × UInt8 :=
  if lead = 0xe0 then (0xa0, 0xbf)
  else if lead = 0xed then (0x80, 0x9f)
  else if lead = 0xf0 then (0x90, 0xbf)
  else if lead = 0xf4 then (0x80, 0x8f)
  else (0x80, 0xbf)

/-- How many bytes a character takes; a byte that starts none stands for itself. -/
def characterSize (lead : UInt8) : Nat :=
  if lead < 0xc2 then 1
  else if lead < 0xe0 then 2
  else if lead < 0xf0 then 3
  else if lead < 0xf5 then 4
  else 1

/-- Whether `bytes` are a proper beginning of a character, or none at all. -/
def needsMore : List UInt8 → Bool
  | [] => true
  | lead :: rest =>
    let (low, high) := secondRange lead
    rest.length + 1 < characterSize lead &&
      (match rest with
        | [] => true
        | second :: others =>
          low ≤ second && second ≤ high && others.all fun b => 0x80 ≤ b && b ≤ 0xbf)

def fill (disk : Disk) (location : Disk.Location) (r : Reader) : Except Disk.Refusal Reader := do
  let more ← disk.read location r.offset (capacity - r.buffer.size)
  pure { buffer := r.buffer ++ more, offset := r.offset + more.size, ended := more.isEmpty }

/-- Every reading but the last adds a byte, which bounds the `tries` that are needed. -/
def prepare (disk : Disk) (location : Disk.Location) : (tries : Nat) → Reader →
    Except Disk.Refusal Reader
  | 0, r => .ok r
  | tries + 1, r =>
    if !r.ended && needsMore (r.buffer.take 4).toList then do
      prepare disk location tries (← r.fill disk location)
    else .ok r

/-- Takes the next character; at the end there is none, and the end may be looked for anew. -/
def next (disk : Disk) (location : Disk.Location) (r : Reader) :
    Except Disk.Refusal (Option Char) × Reader :=
  match prepare disk location 5 r with
  | .error refusal => (.error refusal, r)
  | .ok r =>
    if h : 0 < r.buffer.size then
      let piece := r.buffer.pieceAt 0 h
      (.ok (some piece.shown), { r with buffer := r.buffer.drop piece.width })
    else (.ok none, { r with ended := false })

def takeFrom (disk : Disk) (location : Disk.Location) : (count : Nat) → Reader → Bytes →
    Except Disk.Refusal Bytes × Reader
  | 0, r, text => (.ok text, r)
  | count + 1, r, text =>
    match r.next disk location with
    | (.error refusal, r) => (.error refusal, r)
    | (.ok none, r) => (.ok text, r)
    | (.ok (some c), r) =>
      takeFrom disk location count r (text ++ Bytes.ofString (String.singleton c))

def take (disk : Disk) (location : Disk.Location) (count : Nat) (r : Reader) :
    Except Disk.Refusal Bytes × Reader :=
  takeFrom disk location count r .empty

def rest (disk : Disk) (location : Disk.Location) (r : Reader) :
    Except Disk.Refusal Bytes × Reader :=
  if r.ended then (.ok r.buffer, { r with buffer := .empty, ended := false })
  else match disk.read location r.offset (disk.size location) with
    | .error refusal => (.error refusal, { r with buffer := .empty })
    | .ok more =>
      (.ok (r.buffer ++ more), { r with buffer := .empty, offset := r.offset + more.size })

def lineFrom (disk : Disk) (location : Disk.Location) : (fuel : Nat) → Reader → Bytes →
    Except Disk.Refusal Bytes × Reader
  | 0, r, line => (.ok line, r)
  | fuel + 1, r, line =>
    match r.buffer.indexOf? 0x0a 0 with
    | some i => (.ok (line ++ r.buffer.take (i + 1)), { r with buffer := r.buffer.drop (i + 1) })
    | none =>
      if r.ended then (.ok (line ++ r.buffer), { r with buffer := .empty, ended := false })
      else if capacity ≤ r.buffer.size then
        lineFrom disk location fuel { r with buffer := .empty } (line ++ r.buffer)
      else match r.fill disk location with
        | .error refusal => (.error refusal, { r with buffer := .empty })
        | .ok r => lineFrom disk location fuel r line

/-- Takes the next line. Each byte still to come costs at most one reading and one emptying. -/
def line (disk : Disk) (location : Disk.Location) (r : Reader) :
    Except Disk.Refusal Bytes × Reader :=
  let (text, r) := lineFrom disk location (2 * disk.size location + 4) r .empty
  (text.map Bytes.chomp, r)

def atEnd (disk : Disk) (location : Disk.Location) (r : Reader) :
    Except Disk.Refusal Bool × Reader :=
  if !r.buffer.isEmpty then (.ok false, r)
  else if r.ended then (.ok true, { r with ended := false })
  else match r.fill disk location with
    | .error refusal => (.error refusal, r)
    | .ok r => (.ok r.ended, { r with ended := false })

end Reader

/-- A writer: bytes held back, where they will go in the file, and the refusal that stopped it.
An appending writer writes at the end of the file, wherever that is. -/
structure Writer where
  appending : Bool
  buffer : Bytes := .empty
  offset : Nat := 0
  refusal : Option Disk.Refusal := none

namespace Writer

def send (disk : Disk) (location : Disk.Location) (data : Bytes) (w : Writer) :
    Except Disk.Refusal Unit × Writer × Disk :=
  let offset := if w.appending then disk.size location else w.offset
  match disk.write location offset data with
  | .error refusal => (.error refusal, { w with refusal := some refusal }, disk)
  | .ok disk => (.ok (), { w with offset := offset + data.size }, disk)

/-- Sends what is held back. After a refusal nothing is sent any more. -/
def flush (disk : Disk) (location : Disk.Location) (w : Writer) :
    Except Disk.Refusal Unit × Writer × Disk :=
  match w.refusal with
  | some refusal => (.error refusal, w, disk)
  | none =>
    if w.buffer.isEmpty then (.ok (), w, disk)
    else match w.send disk location w.buffer with
      | (.ok (), w, disk) => (.ok (), { w with buffer := .empty }, disk)
      | failed => failed

def accept (disk : Disk) (location : Disk.Location) (data : Bytes) (w : Writer) :
    Except Disk.Refusal Unit × Writer × Disk :=
  if data.size ≤ capacity then (.ok (), { w with buffer := data }, disk)
  else w.send disk location data

/-- If there is no room for `data` the buffer is filled up and sent, and the rest taken anew. -/
def write (disk : Disk) (location : Disk.Location) (data : Bytes) (w : Writer) :
    Except Disk.Refusal Unit × Writer × Disk :=
  match w.refusal with
  | some refusal => (.error refusal, w, disk)
  | none =>
    let room := capacity - w.buffer.size
    if data.size ≤ room then (.ok (), { w with buffer := w.buffer ++ data }, disk)
    else if w.buffer.isEmpty then w.accept disk location data
    else
      match { w with buffer := w.buffer ++ data.take room }.flush disk location with
      | (.ok (), w, disk) => w.accept disk location (data.drop room)
      | failed => failed

end Writer

end Kotoba.File
