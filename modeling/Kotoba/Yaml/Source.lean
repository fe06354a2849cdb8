import Kotoba.Text.Bytes
import Kotoba.Yaml.Fault

/-! The characters of a YAML text. A mark at the start of the bytes tells how they are encoded;
without one it is UTF-8. -/
namespace Kotoba.Yaml

def isAllowed (c : Char) : Bool :=
  let n := c.toNat
  n == 0x09 || n == 0x0a || n == 0x0d || (0x20 ≤ n && n ≤ 0x7e) || n == 0x85 ||
    (0xa0 ≤ n && n ≤ 0xfffd) || 0x10000 ≤ n

inductive Encoding where
  | utf8
  | utf16 (lowFirst : Bool)

namespace Encoding

/-- What some bytes start with: a character, too few bytes for one, or something wrong. -/
inductive Piece where
  | char (c : Char) (width : Nat)
  | cut (cause : Unreadable) (width : Nat)
  | bad (cause : Unreadable) (width : Nat)

def Piece.width : Piece → Nat
  | char _ width | cut _ width | bad _ width => width

def ofCode (code width : Nat) : Piece :=
  let c := Char.ofNat code
  if isAllowed c then .char c width else .bad .control width

def octets? (first : UInt8) : Option Nat :=
  if first < 0x80 then some 1
  else if first < 0xc0 then none
  else if first < 0xe0 then some 2
  else if first < 0xf0 then some 3
  else if first < 0xf8 then some 4
  else none

def isTrailing (octet : UInt8) : Bool := 0x80 ≤ octet && octet < 0xc0

/-- The first code that needs `width` octets, and what the first octet adds to a code. -/
def bounds : (width : Nat) → Nat × Nat
  | 2 => (0x80, 0xc0)
  | 3 => (0x800, 0xe0)
  | 4 => (0x10000, 0xf0)
  | _ => (0, 0)

def octetPiece (first : UInt8) (rest : List UInt8) : Piece :=
  match octets? first with
  | none => .bad .badLeading 1
  | some width =>
    let trailing := rest.take (width - 1)
    let (least, added) := bounds width
    let code := trailing.foldl (fun n b => 64 * n + (b.toNat - 0x80)) (first.toNat - added)
    if trailing.length < width - 1 then .cut .incomplete width
    else if !trailing.all isTrailing then .bad .badTrailing width
    else if code < least then .bad .badLength width
    else if (0xd800 ≤ code && code ≤ 0xdfff) || 0x10ffff < code then .bad .noCharacter width
    else ofCode code width

def unit (lowFirst : Bool) (a b : UInt8) : Nat :=
  if lowFirst then 256 * b.toNat + a.toNat else 256 * a.toNat + b.toNat

def unitPiece (lowFirst : Bool) (first : Nat) (rest : List UInt8) : Piece :=
  if 0xdc00 ≤ first ∧ first ≤ 0xdfff then .bad .loneLow 2
  else if 0xd800 ≤ first ∧ first ≤ 0xdbff then
    match rest with
    | a :: b :: _ =>
      let second := unit lowFirst a b
      if 0xdc00 ≤ second ∧ second ≤ 0xdfff then
        ofCode (0x10000 + 1024 * (first - 0xd800) + (second - 0xdc00)) 4
      else .bad .missingLow 4
    | _ => .cut .incompletePair 4
  else ofCode first 2

def piece? (encoding : Encoding) : List UInt8 → Option Piece
  | [] => none
  | a :: rest =>
    match encoding, rest with
    | utf8, _ => some (octetPiece a rest)
    | utf16 lowFirst, b :: rest => some (unitPiece lowFirst (unit lowFirst a b) rest)
    | utf16 _, [] => some (.cut .incompleteUnit 2)

end Encoding

structure Source where
  chars : List Char
  ending : Option Fault := none

namespace Source

def chunkSize : Nat := 512

/-- Decodes bytes; `decoded` holds the characters so far, newest first, `before` those before the
present chunk, and `room` tells how many bytes of the chunk are left. A piece that does not fit
starts a new chunk. Of a chunk with something wrong nothing can be had, but too few bytes are
noticed only at the end of the text. -/
def decode (encoding : Encoding) :
    (fuel room : Nat) → (before decoded : List Char) → List UInt8 → Source
  | 0, _, _, decoded, _ => ⟨decoded.reverse, none⟩
  | fuel + 1, room, before, decoded, bytes =>
    match encoding.piece? bytes with
    | none => ⟨decoded.reverse, none⟩
    | some piece =>
      let (room, before) := if room < piece.width then (chunkSize, decoded) else (room, before)
      match piece with
      | .char c width =>
        decode encoding fuel (room - width) before (c :: decoded) (bytes.drop width)
      | .cut cause _ => ⟨decoded.reverse, some (.unreadable cause)⟩
      | .bad cause _ => ⟨before.reverse, some (.unreadable cause)⟩

def ofBytes (text : Bytes) : Source :=
  let start (encoding : Encoding) (mark : Nat) : Source :=
    decode encoding text.size (chunkSize - mark) [] [] (text.toList.drop mark)
  match text.toList with
  | 0xff :: 0xfe :: _ => start (.utf16 true) 2
  | 0xfe :: 0xff :: _ => start (.utf16 false) 2
  | 0xef :: 0xbb :: 0xbf :: _ => start .utf8 3
  | _ => start .utf8 0

end Source

end Kotoba.Yaml
