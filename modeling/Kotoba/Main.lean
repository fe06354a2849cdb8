import Kotoba.Command.Run

/-! The program: it takes a snapshot of the files around it, does on that snapshot what its
arguments say, and then writes out what was printed and which files changed. -/
namespace Kotoba.Main

/-- More rounds than a loop takes in a lifetime. -/
def rounds : Nat := Nat.pow 2 62

def names (path : String) : Disk.Location :=
  ((path.splitOn "/").filter (· != "")).map Bytes.ofString

def addFile (path : String) (disk : Disk) : IO Disk := do
  try
    return disk.install (names path) (.file (← IO.FS.readBinFile path))
  catch _ => return disk

def addConfigs (disk : Disk) : IO Disk := do
  let mut disk := disk
  for directory in Disk.ancestors disk.current do
    disk ← addFile (Disk.Location.path (directory ++ [Config.fileName])).shown disk
  return disk

def changes (before after : Disk) : List (String × Bytes) :=
  (after.filesBelow []).filterMap fun (location, content) =>
    match before.get? location with
    | some (.file old) => if old == content then none else some (location.path.shown, content)
    | _ => some (location.path.shown, content)

partial def readAll (stream : IO.FS.Stream) (text : Bytes) : IO Bytes := do
  let more ← stream.read 65536
  if more.isEmpty then return text else readAll stream (text ++ more)

end Kotoba.Main

open Kotoba Kotoba.Main in
def main (arguments : List String) : IO UInt32 := do
  let current := (← IO.currentDir).toString
  let mut disk := ({ current := names current } : Disk).putDirectories (names current)
  for entry in (← (← IO.currentDir).readDir) do
    disk ← addFile (current ++ "/" ++ entry.fileName) disk
  for argument in arguments do
    disk ← addFile (if argument.startsWith "/" then argument else current ++ "/" ++ argument) disk
  disk ← addConfigs disk
  let input : Console.Input := { pending := ← readAll (← IO.getStdin) .empty }
  let (code, t) := Command.run rounds (arguments.map Bytes.ofString) { disk, input }
  for line in t.log.reverse do
    (← IO.getStderr).write (line.text ++ Bytes.ofString "\n")
  (← IO.getStdout).write t.output.text
  (← IO.getStderr).write t.errorText
  for (path, content) in changes disk t.disk do
    IO.FS.writeBinFile path content
  return code.toUInt32
