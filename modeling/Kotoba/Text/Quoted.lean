import Kotoba.Text.Printable
import Kotoba.Text.Utf8

/-! Quoted strings: printable characters as they are, everything else escaped. -/
namespace Kotoba.Text

/-- The lower-case hexadecimal digits of `n`, padded with zeros to `width`. -/
def hex (width n : Nat) : String :=
  let digits := Nat.toDigits 16 n
  String.ofList (List.replicate (width - digits.length) '0' ++ digits)

def escape (c : Char) : String :=
  if c = '"' then "\\\""
  else if c = '\\' then "\\\\"
  else if isPrintable c then String.singleton c
  else match c.toNat with
    | 0x07 => "\\a"
    | 0x08 => "\\b"
    | 0x09 => "\\t"
    | 0x0a => "\\n"
    | 0x0b => "\\v"
    | 0x0c => "\\f"
    | 0x0d => "\\r"
    | n =>
      if n < 0x20 || n == 0x7f then "\\x" ++ hex 2 n
      else if n < 0x10000 then "\\u" ++ hex 4 n
      else "\\U" ++ hex 8 n

/-- The escaped form of a piece inside quotes; a stray byte is written as its code. -/
def Piece.escape : Piece → String
  | .char c => Text.escape c
  | .stray b => "\\x" ++ hex 2 b.toNat

def quote (b : Bytes) : Bytes :=
  (b.foldPieces (fun acc p => acc ++ Bytes.ofString p.escape) "\"") ++ "\""

def quoteString (s : String) : Bytes := quote s

end Kotoba.Text
