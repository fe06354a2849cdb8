import Kotoba.Config.Decode

/-! Where a configuration comes from. -/
namespace Kotoba.Config

def load (disk : Disk) (path : Bytes) : Except Error Config :=
  if path.isEmpty then .error .emptyPath
  else
    let path := (disk.absolute path).path
    match disk.find path with
    | .error refusal => .error (.unopened path ⟨"open", path, refusal⟩)
    | .ok _ =>
      match disk.readFile path with
      | .error failure => .error (.unreadable path failure)
      | .ok content =>
        match decode content with
        | .error reason => .error (.malformed path reason)
        | .ok c => { c with path }.validate

/-- The path of the configuration in a directory; a directory of that name is none. -/
def within? (disk : Disk) (directory : Disk.Location) : Except Error (Option Bytes) :=
  let candidate := Disk.Location.path (directory ++ [fileName])
  match disk.find candidate with
  | .ok (_, entry) => .ok (if entry.isDirectory then none else some candidate)
  | .error .missing => .ok none
  | .error refusal => .error (.unsearched ⟨"stat", candidate, refusal⟩)

/-- The path of the nearest configuration from a directory upwards. Only the root lies in itself. -/
def searchIn (disk : Disk) (origin : Bytes) (directory : Disk.Location) : Except Error Bytes := do
  match ← within? disk directory with
  | some found => pure found
  | none =>
    let parent := directory.dropLast
    if parent == directory then throw (.notFound origin) else searchIn disk origin parent
termination_by directory.length
decreasing_by
  rename_i hparent
  have hne : directory ≠ [] := by
    rintro rfl
    exact hparent rfl
  rw [List.length_dropLast]
  exact Nat.sub_one_lt (mt List.length_eq_zero_iff.mp hne)

/-- Where the search for a configuration starts: at `path`, or around it if it is a file. -/
def startOf (disk : Disk) (path : Bytes) : Disk.Location :=
  let location := disk.absolute path
  match disk.find location.path with
  | .ok (_, entry) => if entry.isDirectory then location else location.dropLast
  | .error _ => location

def find (disk : Disk) (path : Bytes) : Except Error Bytes :=
  let start := startOf disk path
  searchIn disk start.path start

/-- The configuration that governs `path`: the nearest one, or the usual one if there is none. -/
def governing (disk : Disk) (path : Bytes) : Except Error Config :=
  match find disk path with
  | .ok found => load disk found
  | .error (.notFound _) => .ok {}
  | .error e => .error e

end Kotoba.Config
