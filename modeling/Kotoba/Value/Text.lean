import Kotoba.Decimal.Layout
import Kotoba.Value.Basic

/-! Values as text: as programs print them, and tagged by kind so that different contents differ. -/
namespace Kotoba

/-- The text of a float: positional, with a point unless it is not finite. -/
def Decimal.pointed (x : Float) : String :=
  let text := ({} : Layout).text x
  if text.any fun c => c == '.' || c == 'I' || c == 'N' then text else text ++ ".0"

/-- Written `<function f(a, b)>`. -/
def Function.text (f : Function) : String :=
  "<function " ++ f.name ++ "(" ++ ", ".intercalate f.params ++ ")>"

namespace Store

def briefly (s : Store) : Value → Bytes
  | .nothing | .null => "null"
  | .int n => Bytes.ofInt n.toInt
  | .float x => Decimal.pointed x
  | .string text => text
  | .bool b => if b then "HAI" else "IIE"
  | .array _ => "[...]"
  | .function f => f.text
  | .reference name => name
  | .file index => (s.files[index]?.map File.Handle.text).getD .empty

/-- The text of a value, with up to `depth` levels of arrays. The arrays that are being written out
are kept track of, so that none of them is written out again, and a string inside an array is
quoted. -/
def formatWithin (s : Store) : (depth : Nat) → Value → StateM (List Nat) Bytes
  | depth + 1, .array index => do
    if (← get).contains index then pure "[...]"
    else
      modify (index :: ·)
      let parts ← (s.elements index).toList.mapM fun
        | .string text => pure (Text.quote text)
        | v => formatWithin s depth v
      modify (·.erase index)
      pure ("[" ++ Bytes.join ", " parts ++ "]")
  | _, v => pure (s.briefly v)

/-- No more arrays than the store has can be nested without repeating one. -/
def format (s : Store) (v : Value) : Bytes := ((s.formatWithin (s.arrays.size + 1) v).run []).1

def briefTag (s : Store) : Value → Bytes
  | .nothing => "null"
  | .string text => "string:" ++ Text.quote text
  | .array _ => "array"
  | .file index =>
    match s.files[index]? with
    | some h =>
      "file:" ++ Text.quote h.path ++ Bytes.ofString (":" ++ h.mode.text ++ s!":{index}")
    | none => Bytes.ofString s!"file:{index}"
  | v => Bytes.ofString (v.kind.name ++ ":") ++ s.briefly v

/-- The tagged text of a value inside the arrays `enclosing`, with up to `depth` levels of arrays.
An array inside itself is written as its place among the enclosing ones, counted from the
outermost. -/
def serializeWithin (s : Store) : (depth : Nat) → (enclosing : List Nat) → Value → Bytes
  | depth + 1, enclosing, .array index =>
    match enclosing.idxOf? index with
    | some place => Bytes.ofString s!"cycle:{place}"
    | none =>
      -- The enclosing arrays of an element end with `index`. To keep those of all elements in one
      -- buffer would do as well: each element is written before the next one puts its own name
      -- past the same end, and none looks beyond its own.
      let parts := (s.elements index).toList.map (serializeWithin s depth (enclosing ++ [index]))
      "array:[" ++ Bytes.join "," parts ++ "]"
  | _, _, v => s.briefTag v

def serialize (s : Store) (v : Value) : Bytes := s.serializeWithin (s.arrays.size + 1) [] v

def describe (s : Store) (v : Value) : Bytes :=
  match v with
  | .nothing => "null"
  | v => Bytes.ofString (v.kind.name ++ " ") ++ s.format v

end Store

end Kotoba
