/-! Integers as users write them: a sign, a prefix that tells the base, and digits that may be
grouped by underscores. -/
namespace Kotoba.Decimal.Integer

inductive Problem where
  | malformed
  | outOfRange
deriving DecidableEq, Repr

def digit? (c : Char) : Option Nat :=
  if '0' ≤ c ∧ c ≤ '9' then some (c.toNat - 48)
  else if 'a' ≤ c ∧ c ≤ 'z' then some (c.toNat - 87)
  else if 'A' ≤ c ∧ c ≤ 'Z' then some (c.toNat - 55)
  else none

/-- The base and the digits of a text without a sign; also a leading zero announces a base. -/
def splitBase (cs : List Char) : Nat × List Char :=
  match cs with
  | '0' :: c :: d :: rest =>
    match c.toLower with
    | 'b' => (2, d :: rest)
    | 'o' => (8, d :: rest)
    | 'x' => (16, d :: rest)
    | _ => (8, c :: d :: rest)
  | '0' :: rest => (8, rest)
  | _ => (10, cs)

/-- Adds digits to `n`, which has to stay below `2 ^ 64`; the first problem met counts. -/
def digits (base : Nat) : List Char → Nat → Except Problem Nat
  | [], n => .ok n
  | '_' :: rest, n => digits base rest n
  | c :: rest, n =>
    match digit? c with
    | none => .error .malformed
    | some d =>
      if base ≤ d then .error .malformed
      else if 18446744073709551616 ≤ n * base + d then .error .outOfRange
      else digits base rest (n * base + d)

/-- Whether every underscore stands between two digits or after a prefix. -/
def groupedFrom (after : Bool) : List Char → Bool
  | [] => true
  | '_' :: [] => false
  | '_' :: '_' :: _ => false
  | '_' :: rest => after && groupedFrom false rest
  | _ :: rest => groupedFrom true rest

def isGrouped (cs : List Char) : Bool :=
  match cs with
  | '0' :: c :: rest =>
    if c.toLower = 'b' ∨ c.toLower = 'o' ∨ c.toLower = 'x' then groupedFrom true rest
    else groupedFrom false cs
  | _ => groupedFrom false cs

def parseNat (cs : List Char) : Except Problem Nat :=
  if cs.isEmpty then .error .malformed
  else do
    let (base, rest) := splitBase cs
    let n ← digits base rest 0
    if isGrouped cs then .ok n else .error .malformed

def parse (s : String) : Except Problem Int :=
  let (negative, cs) := match s.toList with
    | '-' :: cs => (true, cs)
    | '+' :: cs => (false, cs)
    | cs => (false, cs)
  do
    let n ← parseNat cs
    if negative then
      if n ≤ 9223372036854775808 then .ok (-n) else .error .outOfRange
    else if n < 9223372036854775808 then .ok n else .error .outOfRange

end Kotoba.Decimal.Integer
