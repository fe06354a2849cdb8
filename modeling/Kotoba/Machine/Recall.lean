import Kotoba.Scope.Digest
import Kotoba.Value.Basic

/-! The results of earlier calls, by the digest of the scope they were made in. -/
namespace Kotoba

/-- Remembered results, the most recently used first, and no more than `capacity` of them. -/
structure Recall where
  capacity : Nat
  entries : List (Digest × Value) := []

namespace Recall

def isEnabled (r : Recall) : Bool := 0 < r.capacity

def without (key : Digest) (entries : List (Digest × Value)) : List (Digest × Value) :=
  entries.filter fun e => e.1 != key

/-- The result remembered under `key`, which then counts as just used. -/
def get? (r : Recall) (key : Digest) : Option (Value × Recall) :=
  (r.entries.lookup key).map fun v => (v, { r with entries := (key, v) :: without key r.entries })

/-- Remembers a result; the one not used for longest makes room for it. -/
def add (r : Recall) (key : Digest) (v : Value) : Recall :=
  { r with entries := ((key, v) :: without key r.entries).take r.capacity }

def clear (r : Recall) : Recall := { r with entries := [] }

end Recall

end Kotoba
