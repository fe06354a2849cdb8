import Kotoba.Diagnostic.Basic
import Kotoba.Scope.Digest
import Kotoba.Scope.Symbol
import Kotoba.Value.Text

/-! Scopes, and the arena that holds the live ones. -/
namespace Kotoba

structure Scope where
  name : String
  level : Int := 0
  /-- The scope in which names not bound here are looked up; the global scope has none. -/
  parent : Int := -1
  symbols : List (String × Symbol) := []

namespace Scope

/-- Bindings with `name` bound to `symbol`, in place of its old binding if it has one. -/
def insertInto (name : String) (symbol : Symbol) : List (String × Symbol) → List (String × Symbol)
  | [] => [(name, symbol)]
  | (n, s) :: rest =>
    if name < n then (name, symbol) :: (n, s) :: rest
    else if n = name then (name, symbol) :: rest
    else (n, s) :: insertInto name symbol rest

def insert (s : Scope) (name : String) (symbol : Symbol) : Scope :=
  { s with symbols := insertInto name symbol s.symbols }

def symbol? (s : Scope) (name : String) : Option Symbol := s.symbols.lookup name

/-- The bytes that stand for the content of a scope: its name and its bindings in order. -/
def content (s : Scope) (store : Store) : Bytes :=
  s.symbols.foldl
    (fun acc (name, symbol) =>
      acc ++ Bytes.ofString (name ++ "=" ++ symbol.kind.name ++ ":") ++
        store.serialize symbol.value ++ "\x00")
    (Bytes.ofString s.name ++ "\x00")

end Scope

inductive Arena.Fault where
  | undefinedName (name scope : String)
  | undefinedFunction (name : String)
  | notFunction (name : String) (kind : Symbol.Kind)

namespace Arena.Fault

def message : Fault → String
  | undefinedName name scope => "undefined name '" ++ name ++ "' in scope '" ++ scope ++ "'"
  | undefinedFunction name => "undefined function '" ++ name ++ "'"
  | notFunction name kind => "'" ++ name ++ "' is a " ++ kind.name ++ ", not a function"

def diagnostic (f : Fault) : Diagnostic where
  stage := .runtime
  kind := some .undefinedName
  message := f.message

end Arena.Fault

/-- The live scopes. A scope is named by its place, and place zero is the global scope. -/
structure Arena where
  scopes : Array Scope := #[{ name := "global" }]

namespace Arena

def global : Int := 0

def depth (a : Arena) : Nat := a.scopes.size

def scope? (a : Arena) (id : Int) : Option Scope :=
  match id with
  | .ofNat n => a.scopes[n]?
  | .negSucc _ => none

def name (a : Arena) (id : Int) : String := ((a.scope? id).map (·.name)).getD ""

def level (a : Arena) (id : Int) : Int := ((a.scope? id).map (·.level)).getD (-1)

def parent? (a : Arena) (id : Int) : Option Int :=
  (a.scope? id).bind fun s => if s.parent = -1 then none else some s.parent

def push (a : Arena) (name : String) (parent : Int) : Int × Arena :=
  (a.scopes.size, { scopes := a.scopes.push { name, parent, level := a.level parent + 1 } })

/-- Drops a live scope and all scopes above it; the global scope stays. -/
def pop (a : Arena) (id : Int) : Arena :=
  if id ≤ global then a else { scopes := a.scopes.shrink id.toNat }

def reset (a : Arena) : Arena := { scopes := a.scopes.take 1 }

def insert (a : Arena) (id : Int) (name : String) (symbol : Symbol) : Arena :=
  if id < 0 then a else { scopes := a.scopes.modify id.toNat fun s => s.insert name symbol }

def define (a : Arena) (id : Int) (name : String) (v : Value) : Arena :=
  a.insert id name (.of v)

def localSymbol? (a : Arena) (id : Int) (name : String) : Option Symbol :=
  (a.scope? id).bind fun s => s.symbol? name

def symbolFrom (a : Arena) (name : String) : (fuel : Nat) → Int → Option Symbol
  | 0, _ => none
  | fuel + 1, id =>
    match a.localSymbol? id name with
    | some symbol => some symbol
    | none =>
      match a.parent? id with
      | some parent => symbolFrom a name fuel parent
      | none => none

/-- A chain without repetition is no longer than there are scopes. -/
def symbol? (a : Arena) (id : Int) (name : String) : Option Symbol :=
  a.symbolFrom name a.scopes.size id

def lookup (a : Arena) (id : Int) (name : String) : Except Fault Value :=
  match a.symbol? id name with
  | some symbol => .ok symbol.value
  | none => .error (.undefinedName name (a.name id))

def localLookup (a : Arena) (id : Int) (name : String) : Except Fault Value :=
  match a.localSymbol? id name with
  | some symbol => .ok symbol.value
  | none => .error (.undefinedName name (a.name id))

def function (a : Arena) (id : Int) (name : String) : Except Fault Function :=
  match a.symbol? id name with
  | none => .error (.undefinedFunction name)
  | some symbol =>
    match symbol.value with
    | .function f => .ok f
    | _ => .error (.notFunction name symbol.kind)

/-- The digest of the content of a scope, without its parents; zero if it is not live. -/
def digest (a : Arena) (store : Store) (id : Int) : Digest :=
  match a.scope? id with
  | some s => .ofBytes (s.content store)
  | none => .zero

end Arena

end Kotoba
