import Kotoba.Text.Bytes
import Kotoba.Text.Blank

/-! Byte strings as sequences of characters. -/
namespace Kotoba.Text

/-- What stands at an offset of a byte string: an encoded character, or a byte that begins none. -/
inductive Piece where
  | char (c : Char)
  | stray (b : UInt8)
deriving DecidableEq, Repr

namespace Piece

def width : Piece → Nat
  | .char c => c.utf8Size
  | .stray _ => 1

/-- The character a reader sees; a stray byte shows as the replacement character. -/
def shown : Piece → Char
  | .char c => c
  | .stray _ => '\uFFFD'

def bytes : Piece → Bytes
  | .char c => String.toUTF8 (String.singleton c)
  | .stray b => Bytes.ofList [b]

end Piece

end Kotoba.Text

namespace Kotoba.Bytes
open Kotoba.Text

def pieceAt (b : Bytes) (i : Nat) (h : i < b.size) : Piece :=
  match b.utf8DecodeChar? i with
  | some c => .char c
  | none => .stray b[i]

/-- Folds over the pieces of `b` from offset `i` on, at most `fuel` of them. -/
@[specialize]
def foldFrom {α : Type} (b : Bytes) (f : α → Piece → α) : (fuel i : Nat) → α → α
  | 0, _, acc => acc
  | fuel + 1, i, acc =>
    if h : i < b.size then
      let p := b.pieceAt i h
      foldFrom b f fuel (i + p.width) (f acc p)
    else acc

@[inline]
def foldPieces {α : Type} (b : Bytes) (f : α → Piece → α) (start : α) : α :=
  b.foldFrom f b.size 0 start

def pieces (b : Bytes) : List Piece := (b.foldPieces (fun acc p => p :: acc) []).reverse

def chars (b : Bytes) : List Char := (b.foldPieces (fun acc p => p.shown :: acc) []).reverse

def length (b : Bytes) : Nat := b.foldPieces (fun n _ => n + 1) 0

/-- `b` with every stray byte replaced by the replacement character. -/
def shown (b : Bytes) : String := String.ofList b.chars

def trimBlank (b : Bytes) : Bytes :=
  let core := b.pieces.dropWhile fun p => isBlank p.shown
  let core := (core.reverse.dropWhile fun p => isBlank p.shown).reverse
  core.foldl (fun acc p => acc ++ p.bytes) .empty

end Kotoba.Bytes
