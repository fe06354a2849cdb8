import Kotoba.Text.Utf8
import Kotoba.Yaml.Source
import Kotoba.Yaml.Token

/-! Anchors and tags, and the directives that give handles of tags their meaning. All of them stand
in one line. -/
namespace Kotoba.Yaml

def Cursor.anchorName (c : Cursor) : Except Fault (String × Cursor) :=
  let (name, after) := c.span isNameChar
  if name.isEmpty ||
      !(endsWord after.rest || after.rest.head?.any "?:,]\x7d%@`".toList.contains) then
    .error (c.fault .missingName)
  else .ok (String.ofList name, after)

namespace Tag

def isTagChar (c : Char) : Bool := isNameChar c || ";/?:@&=+$,.!~*'()[]".toList.contains c

def octet? : List Char → Option UInt8
  | '%' :: a :: b :: _ => do
    let high ← hexDigit? a
    let low ← hexDigit? b
    some (UInt8.ofNat (16 * high + low))
  | _ => none

def trailingOctets : (n : Nat) → Cursor → Except Fault (List UInt8 × Cursor)
  | 0, c => .ok ([], c)
  | n + 1, c =>
    match octet? c.rest with
    | none => .error (c.fault .badOctet)
    | some octet =>
      if !Encoding.isTrailing octet then .error (c.fault .badTrailingOctet)
      else do
        let (octets, c) ← trailingOctets n (c.skip 3)
        .ok (octet :: octets, c)

def encoded (c : Cursor) : Except Fault (List Char × Cursor) :=
  match octet? c.rest with
  | none => .error (c.fault .badOctet)
  | some octet =>
    match Encoding.octets? octet with
    | none => .error (c.fault .badLeadingOctet)
    | some width => do
      let (octets, c) ← trailingOctets (width - 1) (c.skip 3)
      .ok ((Bytes.ofList (octet :: octets)).chars, c)

/-- Reads on in a tag; `text` holds what was read, newest first. -/
def textFrom : (fuel : Nat) → (text : List Char) → Cursor → Except Fault (List Char × Cursor)
  | 0, text, c => .ok (text.reverse, c)
  | fuel + 1, text, c =>
    match c.rest with
    | [] => .ok (text.reverse, c)
    | ch :: _ =>
      if ch == '%' then do
        let (chars, c) ← encoded c
        textFrom fuel (chars.reverse ++ text) c
      else if isTagChar ch then textFrom fuel (ch :: text) (c.skip 1)
      else .ok (text.reverse, c)

/-- The text of a tag, which must not be empty unless something came before. -/
def text (before : Bool) (c : Cursor) : Except Fault (String × Cursor) := do
  let (text, after) ← textFrom c.left [] c
  if text.isEmpty && !before then .error (c.fault .missingTag)
  else .ok (String.ofList text, after)

/-- A handle: an exclamation mark, or, if it is `closed`, a name between two of them. -/
def handle (c : Cursor) : Except Fault (String × Bool × Cursor) :=
  if c.rest.head? = some '!' then
    let (name, after) := (c.skip 1).span isNameChar
    let text := String.ofList ('!' :: name)
    if after.rest.head? = some '!' then .ok (text ++ "!", true, after.skip 1)
    else .ok (text, false, after)
  else .error (c.fault .missingHandleMark)

/-- A tag between `!<` and `>` has no handle, nor has a lone exclamation mark. -/
def parts (c : Cursor) : Except Fault (String × String × Cursor) :=
  match c.rest with
  | '!' :: '<' :: _ => do
    let (text, c) ← text false (c.skip 2)
    if c.rest.head? = some '>' then .ok ("", text, c.skip 1)
    else .error (c.fault .unclosedTag)
  | _ => do
    let (handle, closed, c) ← handle c
    if closed then
      let (text, c) ← text false c
      .ok (handle, text, c)
    else
      let (text, c) ← text true c
      let suffix := String.ofList (handle.toList.drop 1) ++ text
      if suffix.isEmpty then .ok ("", "!", c) else .ok ("!", suffix, c)

def read (c : Cursor) : Except Fault (Sign × Cursor) := do
  let (handle, suffix, c) ← parts c
  if endsWord c.rest then .ok (.tag handle suffix, c) else .error (c.fault .missingBlankOrBreak)

end Tag

namespace Directive

def number (c : Cursor) : Except Fault (Nat × Cursor) :=
  let (digits, after) := c.span Char.isDigit
  if digits.isEmpty then .error (c.fault .missingVersionNumber)
  else if 2 < digits.length then .error (c.fault .longVersionNumber)
  else .ok (digits.foldl (fun n d => 10 * n + (d.toNat - 48)) 0, after)

def version (c : Cursor) : Except Fault (Sign × Cursor) := do
  let (major, c) ← number (c.skipWhile isSpace)
  if c.rest.head? = some '.' then
    let (minor, c) ← number (c.skip 1)
    .ok (.version major minor, c)
  else .error (c.fault .missingVersionPoint)

def tagHandle (c : Cursor) : Except Fault (Sign × Cursor) := do
  let (handle, closed, c) ← Tag.handle (c.skipWhile isSpace)
  if !closed && handle != "!" then .error (c.fault .missingHandleMark)
  else if !c.rest.head?.any isSpace then .error (c.fault .missingBlank)
  else
    let (text, c) ← Tag.text false (c.skipWhile isSpace)
    if endsWord c.rest then .ok (.tagHandle handle text, c)
    else .error (c.fault .missingBlankOrBreak)

def read (c : Cursor) : Except Fault (Sign × Cursor) := do
  let start := c.line
  let (name, c) := (c.skip 1).span isNameChar
  if name.isEmpty then .error (c.fault .missingDirectiveName)
  else if !endsWord c.rest then .error (c.fault .badDirectiveName)
  else
    let (sign, c) ← match String.ofList name with
      | "YAML" => version c
      | "TAG" => tagHandle c
      | _ => .error (c.fault .unknownDirective)
    let c ← c.lineRest start
    .ok (sign, c)

end Directive

end Kotoba.Yaml
