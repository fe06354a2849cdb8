import Kotoba.Decimal.Integer
import Kotoba.Decimal.Layout
import Kotoba.Text.Base64
import Kotoba.Text.Utf8
import Kotoba.Yaml.Timestamp

/-! What scalars mean. Without a tag of its own a plain scalar means what it looks like. -/
namespace Kotoba.Yaml

inductive Meaning where
  | null
  | bool (b : Bool)
  | int (n : Int)
  | float (x : Float)
  | timestamp
  | merge
  | string (s : String)

namespace Meaning

def tag : Meaning → String
  | null => "!!null"
  | bool _ => "!!bool"
  | int _ => "!!int"
  | float _ => "!!float"
  | timestamp => "!!timestamp"
  | merge => "!!merge"
  | string _ => "!!str"

def ofWord? (s : String) : Option Meaning :=
  if ["true", "True", "TRUE"].contains s then some (bool true)
  else if ["false", "False", "FALSE"].contains s then some (bool false)
  else if ["", "~", "null", "Null", "NULL"].contains s then some null
  else if [".nan", ".NaN", ".NAN"].contains s then some (float (0.0 / 0.0))
  else if [".inf", ".Inf", ".INF", "+.inf", "+.Inf", "+.INF"].contains s then
    some (float (1.0 / 0.0))
  else if ["-.inf", "-.Inf", "-.INF"].contains s then some (float (-1.0 / 0.0))
  else if s = "<<" then some merge
  else none

/-- A signed number of 64 bits, or a number of 64 bits without a sign. -/
def inRange? (negative : Bool) (n : Nat) : Option Int :=
  if negative then if n ≤ 9223372036854775808 then some (-n) else none
  else some n

/-- An integer whose sign stands after the sign of its base. -/
def innerSigned? (cs : List Char) : Option Int := do
  let (base, cs) ← match cs with
    | '0' :: 'b' :: cs => some (2, cs)
    | '0' :: 'o' :: cs => some (8, cs)
    | _ => none
  let (negative, cs) ← match cs with
    | '-' :: cs => some (true, cs)
    | '+' :: cs => some (false, cs)
    | _ => none
  if cs.isEmpty then none
  else
    match Decimal.Integer.digits base cs 0 with
    | .ok n => if !negative && 9223372036854775808 ≤ n then none else inRange? negative n
    | .error _ => none

def integer? (s : String) : Option Int :=
  match Decimal.Integer.parse s with
  | .ok n => some n
  | .error _ =>
    match Decimal.Integer.parseNat s.toList with
    | .ok n => some n
    | .error _ => innerSigned? s.toList

def decimal? (s : String) : Option Float :=
  (Decimal.parse? s).bind fun x => if x.isFinite then some x else none

/-- What a plain scalar means; `times` tells whether it may be a point in time. -/
def ofPlain (times : Bool) (s : String) : Meaning :=
  match ofWord? s with
  | some meaning => meaning
  | none =>
    match s.toList.head? with
    | some '.' => (decimal? s).elim (string s) float
    | some c =>
      if c.isDigit || c == '+' || c == '-' then
        if times && Timestamp.isTimestamp s then timestamp
        else
          let digits := String.ofList (s.toList.filter (· != '_'))
          match integer? digits with
          | some n => int n
          | none => (decimal? digits).elim (string s) float
      else string s
    | none => string s

inductive Misfit where
  | tagged (found text wanted : String)
  | badBinary

def Misfit.message : Misfit → String
  | tagged found text wanted =>
    "yaml: cannot decode " ++ found ++ " `" ++ text ++ "` as a " ++ wanted
  | badBinary => "yaml: !!binary value contains invalid base64 data"

/-- What a scalar with a tag means. Any text is a string, and an integer of 64 bits is a number if
the tag asks for one. -/
def ofTagged (tag text : String) : Except Misfit Meaning :=
  if tag = "!!str" then .ok (string text)
  else if tag = "!!binary" then
    match Text.Base64.decode? text with
    | some bytes => .ok (string bytes.shown)
    | none => .error .badBinary
  else
    let found := ofPlain (tag = "!!timestamp") text
    if found.tag = tag then .ok found
    else
      match tag, found with
      | "!!float", int n =>
        if n < 9223372036854775808 then .ok (float (Float.ofInt n))
        else .error (.tagged found.tag text tag)
      | _, _ => .error (.tagged found.tag text tag)

end Meaning

end Kotoba.Yaml
