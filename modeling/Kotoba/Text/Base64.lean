import Kotoba.Text.Bytes

/-! Bytes written as text, six bits a character. -/
namespace Kotoba.Text.Base64

def bits? (c : Char) : Option Nat :=
  if 'A' ≤ c ∧ c ≤ 'Z' then some (c.toNat - 65)
  else if 'a' ≤ c ∧ c ≤ 'z' then some (c.toNat - 71)
  else if '0' ≤ c ∧ c ≤ '9' then some (c.toNat + 4)
  else if c = '+' then some 62
  else if c = '/' then some 63
  else none

/-- Four characters at a time, of which only the last four may be padded. -/
def decodeChars : List Char → Option (List UInt8)
  | [] => some []
  | [a, b, '=', '='] => do
    let n := 64 * (← bits? a) + (← bits? b)
    some [UInt8.ofNat (n / 16)]
  | [a, b, c, '='] => do
    let n := 4096 * (← bits? a) + 64 * (← bits? b) + (← bits? c)
    some [UInt8.ofNat (n / 1024), UInt8.ofNat (n / 4)]
  | a :: b :: c :: d :: rest => do
    let n := 262144 * (← bits? a) + 4096 * (← bits? b) + 64 * (← bits? c) + (← bits? d)
    let bytes ← decodeChars rest
    some (UInt8.ofNat (n / 65536) :: UInt8.ofNat (n / 256) :: UInt8.ofNat n :: bytes)
  | _ => none

/-- The bytes a text stands for; line ends do not count. -/
def decode? (s : String) : Option Bytes :=
  (decodeChars (s.toList.filter fun c => c != '\n' && c != '\r')).map Bytes.ofList

end Kotoba.Text.Base64
