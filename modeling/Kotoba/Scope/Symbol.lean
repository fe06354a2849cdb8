import Kotoba.Value.Basic

/-! Symbols: what a name is bound to in a scope. -/
namespace Kotoba

/-- What sort of thing a name is bound to. -/
inductive Symbol.Kind where
  | plain
  | function
  | array
  | other (code : Int)
deriving DecidableEq, Repr

namespace Symbol.Kind

def ofCode : Int → Kind
  | 0 => plain
  | 1 => function
  | 2 => array
  | code => other code

def name : Kind → String
  | plain => "variable"
  | function => "function"
  | array => "array"
  | other code => s!"unknown_symbol_{code}"

end Symbol.Kind

structure Symbol where
  kind : Symbol.Kind
  value : Value

def Symbol.of (v : Value) : Symbol :=
  match v with
  | .function _ => ⟨.function, v⟩
  | .array _ => ⟨.array, v⟩
  | _ => ⟨.plain, v⟩

end Kotoba
