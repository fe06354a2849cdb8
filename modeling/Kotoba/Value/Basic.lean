import Kotoba.File.Handle
import Kotoba.Syntax.Tree

/-! Run-time values, and the store that holds what they share. -/
namespace Kotoba

structure Function where
  name : String
  params : List String
  body : Option Body

def Function.ofDef (f : FuncDef) : Function where
  name := f.name.name
  params := f.params.map (·.name)
  body := f.body

/-- Run-time values. Arrays and files live in a `Store` and are named by their index there. -/
inductive Value where
  /-- No value at all: what a statement yields. -/
  | nothing
  | null
  | int (n : Int64)
  | float (x : Float)
  | string (text : Bytes)
  | bool (b : Bool)
  | array (index : Nat)
  | function (f : Function)
  /-- A name that still has to be looked up. -/
  | reference (name : String)
  | file (index : Nat)

namespace Value

instance : Inhabited Value := ⟨.null⟩

inductive Kind where
  | integer
  | float
  | string
  | boolean
  | array
  | function
  | reference
  | file
  | null
deriving DecidableEq, Repr

namespace Kind

def name : Kind → String
  | integer => "integer"
  | float => "float"
  | string => "string"
  | boolean => "boolean"
  | array => "array"
  | function => "function"
  | reference => "reference"
  | file => "file"
  | null => "null"

/-- Kinds are numbered from zero in this order. -/
def all : List Kind :=
  [integer, float, string, boolean, array, function, reference, file, null]

def ofCode? (code : Int) : Option Kind :=
  match code with
  | .ofNat n => all[n]?
  | .negSucc _ => none

def nameOfCode (code : Int) : String :=
  match ofCode? code with
  | some kind => kind.name
  | none => s!"unknown_kind_{code}"

def isNumber : Kind → Bool
  | integer | float => true
  | _ => false

end Kind

/-- The kind of a value. Where a kind is asked for, no value counts as null. -/
def kind : Value → Kind
  | nothing | null => .null
  | int _ => .integer
  | float _ => .float
  | string _ => .string
  | bool _ => .boolean
  | array _ => .array
  | function _ => .function
  | reference _ => .reference
  | file _ => .file

def toFloat? : Value → Option Float
  | int n => some n.toFloat
  | float x => some x
  | _ => none

end Value

/-- What values share: the elements of every array and the state of every file. -/
structure Store where
  arrays : Array (Array Value) := #[]
  files : Array File.Handle := #[]

namespace Store

def elements (s : Store) (index : Nat) : Array Value := s.arrays[index]?.getD #[]

def alloc (s : Store) (elements : Array Value) : Value × Store :=
  (.array s.arrays.size, { s with arrays := s.arrays.push elements })

def update (s : Store) (index slot : Nat) (v : Value) : Store :=
  { s with arrays := s.arrays.modify index fun elements => elements.setIfInBounds slot v }

def adopt (s : Store) (h : File.Handle) : Value × Store :=
  (.file s.files.size, { s with files := s.files.push h })

def truthy (s : Store) : Value → Bool
  | .bool b => b
  | .int n => n != 0
  | .float x => x != 0
  | .string text => !text.isEmpty
  | .array index => !(s.elements index).isEmpty
  | .function _ | .file _ => true
  | .nothing | .null | .reference _ => false

end Store

end Kotoba
