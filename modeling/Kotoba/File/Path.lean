import Kotoba.File.Disk

/-! Paths by their text alone. -/
namespace Kotoba.Disk

def Location.path (location : Location) : Bytes := "/" ++ Bytes.join "/" location

/-- Goes on from a location by one name of a path, whatever the disk holds. -/
def follow (location : Location) (name : Bytes) : Location :=
  if name.isEmpty || name == Bytes.ofString "." then location
  else if name == Bytes.ofString ".." then location.dropLast
  else location ++ [name]

def absolute (d : Disk) (path : Bytes) : Location :=
  let start := if path.data[0]? = some 0x2f then [] else d.current
  (path.splitOn "/").foldl follow start

/-- A location and the locations it lies in, nearest first, up to the root. -/
def ancestors (location : Location) : List Location :=
  (List.range (location.length + 1)).map fun n => location.take (location.length - n)

def readFile (d : Disk) (path : Bytes) : Except Failure Bytes :=
  match d.find path with
  | .error refusal => .error ⟨"open", path, refusal⟩
  | .ok (location, _) =>
    match d.read location 0 (d.size location) with
    | .error refusal => .error ⟨"read", path, refusal⟩
    | .ok content => .ok content

end Kotoba.Disk
