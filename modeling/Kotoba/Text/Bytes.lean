/-! Byte strings. Program texts, run-time strings and paths need not be valid UTF-8. -/
namespace Kotoba

abbrev Bytes := ByteArray

namespace Bytes

def ofString (s : String) : Bytes := s.toUTF8

instance : Coe String Bytes := ⟨ofString⟩

def ofList (bs : List UInt8) : Bytes := ⟨bs.toArray⟩

def toList (b : Bytes) : List UInt8 := b.data.toList

/-- Comparing two byte strings decides whether they are equal. -/
theorem beq_eq_true_iff (a b : Bytes) : (a == b) = true ↔ a = b := by
  change ByteArray.beq a b = true ↔ a = b
  cases a; cases b; simp [ByteArray.beq]

instance : LawfulBEq Bytes where
  eq_of_beq h := (beq_eq_true_iff _ _).1 h
  rfl := (beq_eq_true_iff _ _).2 rfl

def drop (b : Bytes) (i : Nat) : Bytes := b.extract i b.size

def take (b : Bytes) (n : Nat) : Bytes := b.extract 0 n

/-- The parts in order, with `separator` between neighbours. -/
def join (separator : Bytes) : List Bytes → Bytes
  | [] => .empty
  | first :: rest => rest.foldl (fun acc part => acc ++ separator ++ part) first

def replicate (n : Nat) (b : Bytes) : Bytes := Nat.repeat (· ++ b) n .empty

def compareLists : List UInt8 → List UInt8 → Ordering
  | [], [] => .eq
  | [], _ :: _ => .lt
  | _ :: _, [] => .gt
  | a :: as, b :: bs => if a < b then .lt else if b < a then .gt else compareLists as bs

/-- Byte strings are ordered by their first difference. -/
def compare (a b : Bytes) : Ordering := compareLists a.toList b.toList

/-- The pieces between successive leftmost occurrences of `separator`: `skip` bytes of an
occurrence are still to be passed over, and `piece` holds the bytes since the last one,
newest first. -/
def splitList (separator : List UInt8) :
    (skip : Nat) → (piece : List UInt8) → List UInt8 → List (List UInt8)
  | _, piece, [] => [piece.reverse]
  | skip + 1, piece, _ :: rest => splitList separator skip piece rest
  | 0, piece, b :: rest =>
    if separator.isPrefixOf (b :: rest) then
      piece.reverse :: splitList separator (separator.length - 1) [] rest
    else splitList separator 0 (b :: piece) rest

/-- The pieces of `b` between the leftmost non-overlapping occurrences of `separator`. -/
def splitOn (b separator : Bytes) : List Bytes :=
  (splitList separator.toList 0 [] b.toList).map ofList

def lines (b : Bytes) : List Bytes := b.splitOn "\n"

def indexFrom (b : Bytes) (x : UInt8) : (fuel i : Nat) → Option Nat
  | 0, _ => none
  | fuel + 1, i =>
    if h : i < b.size then
      if b[i] = x then some i else indexFrom b x fuel (i + 1)
    else none

def indexOf? (b : Bytes) (x : UInt8) (i : Nat) : Option Nat := b.indexFrom x (b.size - i) i

/-- `b` without one final `x`, if it ends in it. -/
def dropLastIf (b : Bytes) (x : UInt8) : Bytes :=
  if 0 < b.size ∧ b.data.back? = some x then b.take (b.size - 1) else b

/-- A line without its terminator: one line feed, then one carriage return. -/
def chomp (b : Bytes) : Bytes := (b.dropLastIf 0x0a).dropLastIf 0x0d

def trimRight (b : Bytes) (p : UInt8 → Bool) : Bytes :=
  ofList (b.toList.reverse.dropWhile p).reverse

def ofNat (n : Nat) : Bytes := ofString (toString n)

def ofInt (n : Int) : Bytes := ofString (toString n)

end Bytes

end Kotoba
