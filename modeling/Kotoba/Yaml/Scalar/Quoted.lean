import Kotoba.Yaml.Fault
import Kotoba.Yaml.Scalar.Gap

/-! Quoted scalars. Between single quotes only a quote is written in a special way, namely twice;
between double quotes a backslash starts an escape. -/
namespace Kotoba.Yaml.Quoted

def escaped? : Char → Option Char
  | '0' => some '\x00'
  | 'a' => some '\x07'
  | 'b' => some '\x08'
  | 't' | '\t' => some '\t'
  | 'n' => some '\n'
  | 'v' => some '\x0b'
  | 'f' => some '\x0c'
  | 'r' => some '\r'
  | 'e' => some '\x1b'
  | ' ' => some ' '
  | '"' => some '"'
  | '\'' => some '\''
  | '\\' => some '\\'
  | 'N' => some '\x85'
  | '_' => some '\xa0'
  | 'L' => some '\u2028'
  | 'P' => some '\u2029'
  | _ => none

/-- How many hexadecimal digits follow the character after a backslash. -/
def codeLength? : Char → Option Nat
  | 'x' => some 2
  | 'u' => some 4
  | 'U' => some 8
  | _ => none

def coded (length : Nat) (digits : List Char) : Except Lexical Char :=
  match (digits.take length).mapM hexDigit? with
  | none => .error .badEscapeDigit
  | some values =>
    if values.length < length then .error .badEscapeDigit
    else
      let code := values.foldl (fun n d => 16 * n + d) 0
      if (0xd800 ≤ code && code ≤ 0xdfff) || 0x10ffff < code then .error .badEscapeCode
      else .ok (Char.ofNat code)

/-- The character that an escape stands for, and how many characters the escape takes. -/
def escape : List Char → Except Lexical (Char × Nat)
  | [] => .error .unknownEscape
  | ch :: rest =>
    match escaped? ch, codeLength? ch with
    | some c, _ => .ok (c, 2)
    | none, some length => (coded length rest).map fun c => (c, 2 + length)
    | none, none => .error .unknownEscape

/-- Also tells whether the word ended with an escaped line end. -/
def word (single : Bool) (start : Nat) :
    (fuel : Nat) → (text : List Char) → Cursor → Except Fault (List Char × Bool × Cursor)
  | 0, text, c => .ok (text, false, c)
  | fuel + 1, text, c =>
    match c.rest with
    | [] => .ok (text, false, c)
    | ch :: rest =>
      if isSpace ch || isBreak ch then .ok (text, false, c)
      else if single && ch == '\'' then
        if rest.head? = some '\'' then word single start fuel ('\'' :: text) (c.skip 2)
        else .ok (text, false, c)
      else if !single && ch == '"' then .ok (text, false, c)
      else if !single && ch == '\\' then
        match (c.skip 1).lineEnd? with
        | some (_, c) => .ok (text, true, c)
        | none =>
          match escape rest with
          | .error cause => .error (.lexical cause start c.line)
          | .ok (ch, length) => word single start fuel (ch :: text) (c.skip length)
      else word single start fuel (ch :: text) (c.skip 1)

def readFrom (single : Bool) (start : Nat) :
    (fuel : Nat) → (text : List Char) → Cursor → Except Fault (String × Cursor)
  | 0, _, c => .error (.lexical .unclosedQuote start c.line)
  | fuel + 1, text, c =>
    if c.atAnyMark then .error (.lexical .markInQuote start c.line)
    else if c.rest.isEmpty then .error (.lexical .unclosedQuote start c.line)
    else do
      let (text, crossed, c) ← word single start c.left text c
      if c.rest.head? = some (if single then '\'' else '"') then
        .ok (String.ofList text.reverse, c.skip 1)
      else
        let (gap, c) := Gap.readAll 0 { crossed } c
        readFrom single start fuel (gap.folded.reverse ++ text) c

def read (single : Bool) (c : Cursor) : Except Fault (String × Cursor) :=
  readFrom single c.line (c.left + 1) [] (c.skip 1)

end Kotoba.Yaml.Quoted
