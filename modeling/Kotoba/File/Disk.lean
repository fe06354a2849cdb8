import Kotoba.Text.Bytes

/-! Disks: files and directories, how a path leads to them, and why a request is refused. -/
namespace Kotoba

namespace Disk

/-- The place of an entry: the names that lead to it from the root. -/
abbrev Location : Type := List Bytes

inductive Entry where
  | file (content : Bytes)
  | directory
  /-- A device that yields nothing and swallows what is written to it. -/
  | sink
  /-- A device that yields zeros without end and has no room for what is written to it. -/
  | full

def Entry.isDirectory : Entry → Bool
  | directory => true
  | _ => false

inductive Refusal where
  | missing
  | notDirectory
  | isDirectory
  | invalid
  | nameTooLong
  | noSpace
deriving DecidableEq, Repr

def Refusal.text : Refusal → String
  | missing => "no such file or directory"
  | notDirectory => "not a directory"
  | isDirectory => "is a directory"
  | invalid => "invalid argument"
  | nameTooLong => "file name too long"
  | noSpace => "no space left on device"

structure Failure where
  request : String
  path : Bytes
  refusal : Refusal

def Failure.text (f : Failure) : Bytes :=
  Bytes.ofString f.request ++ " " ++ f.path ++ Bytes.ofString (": " ++ f.refusal.text)

end Disk

/-- The entries of a disk, each location at most once, and the directory relative paths start
from. The root is always a directory. -/
structure Disk where
  entries : List (Disk.Location × Disk.Entry) := []
  current : Disk.Location := []

namespace Disk

def get? (d : Disk) (location : Location) : Option Entry :=
  if location.isEmpty then some .directory else d.entries.lookup location

def putEntry (location : Location) (entry : Entry) :
    List (Location × Entry) → List (Location × Entry)
  | [] => [(location, entry)]
  | (l, e) :: rest =>
    if l = location then (location, entry) :: rest else (l, e) :: putEntry location entry rest

def put (d : Disk) (location : Location) (entry : Entry) : Disk :=
  { d with entries := putEntry location entry d.entries }

def putDirectories (d : Disk) (location : Location) : Disk :=
  (List.range location.length).foldl (fun d n => d.put (location.take (n + 1)) .directory) d

def install (d : Disk) (location : Location) (entry : Entry) : Disk :=
  (d.putDirectories location.dropLast).put location entry

/-- The files below `location`: the names that lead to each from there, and its content. -/
def filesBelow (d : Disk) (location : Location) : List (Location × Bytes) :=
  d.entries.filterMap fun
    | (l, .file content) =>
      if location.isPrefixOf l then some (l.drop location.length, content) else none
    | _ => none

/-! ## Paths -/

def nameLimit : Nat := 255

def pathLimit : Nat := 4096

/-- A path as it is followed; `slash` tells whether one follows the last name. -/
structure Route where
  start : Location
  names : List Bytes
  slash : Bool

def route (d : Disk) (path : Bytes) : Except Refusal Route :=
  if path.toList.contains 0 then .error .invalid
  else if path.isEmpty then .error .missing
  else if pathLimit ≤ path.size then .error .nameTooLong
  else .ok {
    start := if path.data[0]? = some 0x2f then [] else d.current
    names := (path.splitOn "/").filter fun name => !name.isEmpty
    slash := path.data.back? = some 0x2f }

def isDots (name : Bytes) : Bool := name == Bytes.ofString "." || name == Bytes.ofString ".."

def enter (d : Disk) (location : Location) (name : Bytes) : Except Refusal Location :=
  if name == Bytes.ofString "." then .ok location
  else if name == Bytes.ofString ".." then .ok location.dropLast
  else if nameLimit < name.size then .error .nameTooLong
  else match d.get? (location ++ [name]) with
    | some .directory => .ok (location ++ [name])
    | some _ => .error .notDirectory
    | none => .error .missing

def walk (d : Disk) (location : Location) (names : List Bytes) : Except Refusal Location :=
  names.foldlM d.enter location

def find (d : Disk) (path : Bytes) : Except Refusal (Location × Entry) := do
  let route ← d.route path
  match route.names.getLast? with
  | none => .ok (route.start, .directory)
  | some name =>
    let parent ← d.walk route.start route.names.dropLast
    if isDots name then .ok (← d.enter parent name, .directory)
    else if nameLimit < name.size then .error .nameTooLong
    else match d.get? (parent ++ [name]) with
      | none => .error .missing
      | some entry =>
        if route.slash && !entry.isDirectory then .error .notDirectory
        else .ok (parent ++ [name], entry)

/-- The place of a file to write at the end of a path; the file need not be there yet. -/
def target (d : Disk) (path : Bytes) : Except Refusal Location := do
  let route ← d.route path
  match route.names.getLast? with
  | none => .error .isDirectory
  | some name =>
    let parent ← d.walk route.start route.names.dropLast
    if route.slash || isDots name then .error .isDirectory
    else if nameLimit < name.size then .error .nameTooLong
    else match d.get? (parent ++ [name]) with
      | some .directory => .error .isDirectory
      | _ => .ok (parent ++ [name])

/-! ## Contents -/

def size (d : Disk) (location : Location) : Nat :=
  match d.get? location with
  | some (.file content) => content.size
  | _ => 0

def read (d : Disk) (location : Location) (offset count : Nat) : Except Refusal Bytes :=
  match d.get? location with
  | some (.file content) => .ok (content.extract offset (offset + count))
  | some .directory => .error .isDirectory
  | some .sink => .ok .empty
  | some .full => .ok (Bytes.replicate count (Bytes.ofList [0]))
  | none => .error .missing

/-- `content` with `data` over it from `offset` on; a gap before it is filled with zeros. -/
def overwrite (content : Bytes) (offset : Nat) (data : Bytes) : Bytes :=
  content.take offset ++ Bytes.replicate (offset - content.size) (Bytes.ofList [0]) ++ data ++
    content.drop (offset + data.size)

def write (d : Disk) (location : Location) (offset : Nat) (data : Bytes) : Except Refusal Disk :=
  match d.get? location with
  | some (.file content) => .ok (d.put location (.file (overwrite content offset data)))
  | some .directory => .error .isDirectory
  | some .sink => .ok d
  | some .full => .error .noSpace
  | none => .error .missing

def truncate (d : Disk) (location : Location) : Disk :=
  match d.get? location with
  | some .sink | some .full => d
  | _ => d.put location (.file .empty)

def ensure (d : Disk) (location : Location) : Disk :=
  if (d.get? location).isSome then d else d.put location (.file .empty)

end Disk

end Kotoba
