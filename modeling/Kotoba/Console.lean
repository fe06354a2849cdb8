import Kotoba.Text.Bytes

/-! The streams a program reads lines from and prints to. -/
namespace Kotoba.Console

/-- An input: what is still to be read, and the failure that follows it instead of an end. -/
structure Input where
  pending : Bytes := .empty
  failure : Option Bytes := none

namespace Input

/-- Takes the next line with its terminator. A failure takes the text before it along. -/
def takeLine (i : Input) : Except Bytes Bytes × Input :=
  match i.pending.indexOf? 0x0a 0 with
  | some n => (.ok (i.pending.take (n + 1)), { i with pending := i.pending.drop (n + 1) })
  | none =>
    let rest := { i with pending := .empty }
    match i.failure with
    | some failure => (.error failure, rest)
    | none => (.ok i.pending, rest)

def readLine (i : Input) : Except Bytes Bytes × Input :=
  let (line, i) := i.takeLine
  (line.map Bytes.chomp, i)

end Input

structure Limit where
  size : Int
  failure : Bytes

def Limit.isPast (l : Limit) (size more : Nat) : Bool := 0 < more && l.size < size + more

/-- An output: what was printed, newest part first and unless it is dropped, and its limit. -/
structure Output where
  parts : List Bytes := []
  size : Nat := 0
  kept : Bool := true
  limit : Option Limit := none

namespace Output

def text (o : Output) : Bytes := Bytes.join .empty o.parts.reverse

/-- Prints `data` as a whole or not at all. -/
def write (o : Output) (data : Bytes) : Except Bytes Output :=
  if o.kept then
    let printed := { o with parts := data :: o.parts, size := o.size + data.size }
    match o.limit with
    | some limit =>
      if limit.isPast o.size data.size then .error limit.failure else .ok printed
    | none => .ok printed
  else .ok o

end Output

end Kotoba.Console
