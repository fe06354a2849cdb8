import Kotoba.Config.Basic
import Kotoba.Text.Quoted
import Kotoba.Yaml.Document

/-! Configurations written in YAML. All that is wrong with the values is reported together, unless
one of them cannot be made sense of at all. -/
namespace Kotoba.Config

open Kotoba.Yaml (Meaning)

structure Decoded where
  config : Config := {}
  wrong : List Bytes := []

inductive Stop where
  | misfit (misfit : Meaning.Misfit)
  | unmergeable
  | recursive (anchor : String)

def Stop.message : Stop → Bytes
  | misfit m => m.message
  | unmergeable => "yaml: map merge requires map or sequence of maps as the value"
  | recursive anchor => Bytes.ofString ("yaml: anchor '" ++ anchor ++ "' value contains itself")

def Decoded.note (d : Decoded) (wrong : Bytes) : Decoded := { d with wrong := d.wrong ++ [wrong] }

def meaning (text tag : String) : Except Stop Meaning :=
  (Meaning.ofTagged tag text).mapError .misfit

/-- A wrong value in the words of its report; long texts are cut. -/
def wrongValue (node : Yaml.Node) (wanted : String) : Bytes :=
  let (text, tag) := match node with
    | .scalar text tag _ => (text, tag)
    | .sequence _ tag _ | .mapping _ tag _ => ("", tag)
    | .reference name _ _ _ => (name, "")
  let bytes := Bytes.ofString text
  let cut := if 10 < bytes.size then bytes.take 7 ++ "..." else bytes
  let shown : Bytes := if tag = "!!seq" ∨ tag = "!!map" then "" else " `" ++ cut ++ "`"
  Bytes.ofString (s!"line {node.line}: cannot unmarshal " ++ tag) ++ shown ++
    Bytes.ofString (" into " ++ wanted)

/-- What keys are told apart by: their kind, and the text of a scalar or the name of an alias. -/
def keyText : Yaml.Node → Nat × String
  | .scalar text _ _ => (0, text)
  | .sequence _ _ _ => (1, "")
  | .mapping _ _ _ => (2, "")
  | .reference name _ _ _ => (3, name)

def repeatedKeys : List (Yaml.Node × Yaml.Node) → List Bytes
  | [] => []
  | (key, _) :: rest =>
    (rest.filterMap fun (other, _) =>
      if keyText other = keyText key then
        some (Bytes.ofString s!"line {other.line}: mapping key " ++
          Text.quoteString (keyText key).2 ++
          Bytes.ofString s!" already defined at line {key.line}")
      else none) ++ repeatedKeys rest

def Decoded.mismatch (d : Decoded) (node : Yaml.Node) (wanted : String) : Decoded :=
  match node with
  | .mapping entries _ _ =>
    let repeated := repeatedKeys entries
    if repeated.isEmpty then d.note (wrongValue node wanted)
    else { d with wrong := d.wrong ++ repeated }
  | _ => d.note (wrongValue node wanted)

/-- The integer toward zero from a number, if it is not above the greatest of 64 bits. -/
def truncated? (x : Float) : Option Int :=
  if x ≤ 9223372036854775808.0 then
    some (if 9223372036854775808.0 ≤ x then -9223372036854775808 else x.toInt64.toInt)
  else none

abbrev Take : Type := Yaml.Node → Decoded → Except Stop Decoded

/-- Puts an integer into a field; nothing leaves the field as it is. -/
def integerField (put : Int → Config → Config) : Take := fun node d =>
  let failed := d.mismatch node "int"
  match node with
  | .scalar text tag _ => do
    match ← meaning text tag with
    | .null => .ok d
    | .int n =>
      .ok (if n < 9223372036854775808 then { d with config := put n d.config } else failed)
    | .float x => .ok ((truncated? x).elim failed fun n => { d with config := put n d.config })
    | _ => .ok failed
  | _ => .ok failed

def truth? (s : String) : Option Bool :=
  if ["y", "Y", "yes", "Yes", "YES", "on", "On", "ON"].contains s then some true
  else if ["n", "N", "no", "No", "NO", "off", "Off", "OFF"].contains s then some false
  else none

def boolField (put : Bool → Config → Config) : Take := fun node d =>
  let failed := d.mismatch node "bool"
  match node with
  | .scalar text tag _ => do
    match ← meaning text tag with
    | .null => .ok d
    | .bool b => .ok { d with config := put b d.config }
    | .string s => .ok ((truth? s).elim failed fun b => { d with config := put b d.config })
    | _ => .ok failed
  | _ => .ok failed

abbrev Fields : Type := List (String × Take)

def isMerge : Yaml.Node → Bool
  | .scalar text tag _ => text == "<<" && tag == "!!merge"
  | _ => false

/-- A mapping being taken up; `given`, if it matters, are the names that count as given. -/
structure Taken where
  decoded : Decoded
  given : Option (List String)
  met : List String := []
  merged : Option Yaml.Node := none

def takeNamed (doc : Yaml.Document) (owner : String) (fields : Fields) (name : String)
    (line : Nat) (value : Yaml.Node) (t : Taken) : Except Stop Taken :=
  if t.given.any (·.contains name) then .ok t
  else
    let t := { t with given := t.given.map (name :: ·) }
    match fields.lookup name with
    | none =>
      let wrong := s!"line {line}: field {name} not found in type {owner}"
      .ok { t with decoded := t.decoded.note wrong }
    | some take =>
      if t.met.contains name then
        let wrong := s!"line {line}: field {name} already set in type {owner}"
        .ok { t with decoded := t.decoded.note wrong }
      else do
        let decoded ← take (doc.resolve value) t.decoded
        .ok { t with decoded, met := name :: t.met }

def takeEntry (doc : Yaml.Document) (owner : String) (fields : Fields)
    (key value : Yaml.Node) (t : Taken) : Except Stop Taken :=
  if isMerge key then .ok { t with merged := some value }
  else
    match doc.resolve key with
    | .scalar text tag _ => do
      match ← meaning text tag with
      | .null => .ok t
      | .string name => takeNamed doc owner fields name key.line value t
      | _ => takeNamed doc owner fields text key.line value t
    | node => .ok { t with decoded := t.decoded.mismatch node "string" }

def givenNames (doc : Yaml.Document) (entries : List (Yaml.Node × Yaml.Node)) : List String :=
  entries.filterMap fun (key, _) =>
    match doc.resolve key with
    | .scalar text tag _ =>
      match meaning text tag with
      | .ok (.string name) => some name
      | _ => none
    | _ => none

/-- Takes up the entries of a mapping, and then those of the mappings it merges, first one first.
An entry counts only if no entry before it has its name. `through` holds the aliases that are being
followed. -/
def takeEntries (doc : Yaml.Document) (owner : String) (fields : Fields) :
    (fuel : Nat) → (through : List Nat) → (given : Option (List String)) →
    List (Yaml.Node × Yaml.Node) → Decoded → Except Stop (Option (List String) × Decoded)
  | 0, _, given, _, d => .ok (given, d)
  | fuel + 1, through, given, entries, d =>
    let repeated := repeatedKeys entries
    if !repeated.isEmpty then .ok (given, { d with wrong := d.wrong ++ repeated })
    else do
      let t ← entries.foldlM (fun t (key, value) => takeEntry doc owner fields key value t)
        { decoded := d, given : Taken }
      match t.merged with
      | none => .ok (t.given, t.decoded)
      | some value =>
        let names := t.given.getD (givenNames doc entries)
        let one (acc : Option (List String) × Decoded) (node : Yaml.Node) :
            Except Stop (Option (List String) × Decoded) :=
          match node, doc.resolve node with
          | .reference name number _ _, .mapping entries _ _ =>
            if through.contains number then .error (.recursive name)
            else takeEntries doc owner fields fuel (number :: through) acc.1 entries acc.2
          | _, .mapping entries _ _ =>
            takeEntries doc owner fields fuel through acc.1 entries acc.2
          | _, _ => .error .unmergeable
        let (names, d) ← match value with
          | .sequence items _ _ => items.foldlM one (some names, t.decoded)
          | value => one (some names, t.decoded) value
        .ok (if t.given.isSome then names else none, d)

def record (doc : Yaml.Document) (fuel : Nat) (owner : String) (fields : Fields) : Take :=
  fun node d =>
    match node with
    | .mapping entries _ _ =>
      (takeEntries doc owner fields fuel [] none entries d).map Prod.snd
    | .scalar text tag _ => do
      match ← meaning text tag with
      | .null => .ok d
      | _ => .ok (d.note (wrongValue node owner))
    | _ => .ok (d.note (wrongValue node owner))

def interpreterFields : Fields := [
  ("max_call_depth", integerField fun n c => { c with maxCallDepth := n }),
  ("call_cache_size", integerField fun n c => { c with callCacheSize := n })]

def lexerFields : Fields := [
  ("max_identifier_length", integerField fun n c => { c with maxIdentifierLength := n }),
  ("max_string_length", integerField fun n c => { c with maxStringLength := n })]

def verboseFields : Fields := [
  ("lexer", boolField fun b c => { c with verboseLexer := b }),
  ("parser", boolField fun b c => { c with verboseParser := b }),
  ("interpreter", boolField fun b c => { c with verboseInterpreter := b })]

def sections (doc : Yaml.Document) (fuel : Nat) : Fields := [
  ("interpreter", record doc fuel "driver.InterpreterConfig" interpreterFields),
  ("lexer", record doc fuel "driver.LexerConfig" lexerFields),
  ("verbose", record doc fuel "driver.VerboseConfig" verboseFields)]

/-- Merging goes down into each mapping and through each alias at most once. -/
def decode (text : Bytes) : Except Bytes Config :=
  match Yaml.read text with
  | .error fault => .error fault.message
  | .ok none => .ok {}
  | .ok (some doc) =>
    let fuel := (text.size + 1) * (text.size + 1)
    match record doc fuel "driver.Config" (sections doc fuel) doc.root {} with
    | .error stop => .error stop.message
    | .ok ⟨c, []⟩ => .ok c
    | .ok ⟨_, wrong⟩ => .error ("yaml: unmarshal errors:\n  " ++ Bytes.join "\n  " wrong)

end Kotoba.Config
