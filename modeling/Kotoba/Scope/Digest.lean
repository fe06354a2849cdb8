import Kotoba.Text.Quoted

/-! Digests: 128-bit hashes of byte strings, by the FNV-1a rule. -/
namespace Kotoba

structure Digest where
  high : UInt64
  low : UInt64
deriving DecidableEq, Repr

namespace Digest

def zero : Digest := ⟨0, 0⟩

def start : Digest := ⟨0x6c62272e07bb0142, 0x62b821756295c58d⟩

/-- The low part of the multiplier `2 ^ 88 + 0x13b`. -/
def factor : UInt64 := 0x13b

/-- The high half of `factor * x`. -/
def carry (x : UInt64) : UInt64 :=
  (factor * (x >>> 32) + (factor * (x &&& 0xffffffff)) >>> 32) >>> 32

/-- The digest multiplied by `2 ^ 88 + 0x13b`, modulo `2 ^ 128`. -/
def scale (d : Digest) : Digest where
  high := carry d.low + (d.low <<< 24) + factor * d.high
  low := factor * d.low

def push (d : Digest) (b : UInt8) : Digest := scale { d with low := d.low ^^^ b.toUInt64 }

def ofBytes (b : Bytes) : Digest := b.data.foldl push start

def text (d : Digest) : String := Text.hex 16 d.high.toNat ++ Text.hex 16 d.low.toNat

end Digest

end Kotoba
