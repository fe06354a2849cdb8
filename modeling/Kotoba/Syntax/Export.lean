import Kotoba.Decimal.Layout
import Kotoba.Syntax.Tree
import Kotoba.Text.Quoted

/-! Trees as documents, and documents as JSON text. -/
namespace Kotoba

/-- A document: nested objects whose fields keep their order. -/
inductive Document where
  | null
  | bool (value : Bool)
  | int (value : Int64)
  | float (value : Float)
  | text (value : String)
  | list (items : List Document)
  | object (fields : List (String × Document))

namespace Document

def get? (key : String) : Document → Option Document
  | object fields => fields.lookup key
  | _ => none

/-- The fields of a node of type `kind`; a span that is unknown is left out. -/
def node (kind : String) (fields : List (String × Document)) (span : Span) : Document :=
  .object (("type", .text kind) :: fields ++
    (if span.isUnknown then [] else [("span", .text span.text)]))

end Document

namespace Layer

def nodeType : Layer → String
  | relational => "Expr"
  | additive => "SimpleExpr"
  | multiplicative => "Term"

end Layer

open Document (node)

def Expr.nodeType : Expr → String
  | int .. | float .. => "NumericLiteral"
  | string .. => "StringLiteral"
  | bool .. => "BooleanLiteral"
  | name .. => "Identifier"
  | group .. | unary .. => "Factor"
  | binary layer .. | single layer .. => layer.nodeType
  | call .. => "Call"
  | input .. => "Input"
  | element .. => "ArrayAccess"
  | charOf .. => "CharCode"
  | codeOf .. => "IntCode"
  | length .. => "Length"
  | read .. => "FileRead"
  | readLine .. => "FileReadLine"
  | atEnd .. => "FileEOF"

def Stmt.nodeType : Stmt → String
  | giveBack .. => "Return"
  | leave .. => "Break"
  | proceed .. => "Continue"
  | when .. => "If"
  | loop .. => "While"
  | range .. => "For"
  | assign .. => "Assignment"
  | advance .. => "Postfix"
  | print .. => "Print"
  | openFile .. => "FileOpen"
  | closeFile .. => "FileClose"
  | write _ _ newline _ => if newline then "FileWriteLine" else "FileWrite"
  | allocate .. | collect .. => "ArrayDefine"
  | update .. => "ArrayUpdate"
  | split .. => "Split"
  | expr value => value.nodeType

def Node.nodeType : Node → String
  | program _ => "Program"
  | function _ => "FuncDef"
  | body _ => "Body"
  | stmt s => s.nodeType
  | expr e => e.nodeType
  | orWhen _ => "Elif"
  | otherwise _ => "Else"
  | operator _ => "Operator"

mutual

def Expr.document : Expr → Document
  | .int value span => node "NumericLiteral" [("int", .int value)] span
  | .float value span => node "NumericLiteral" [("float", .float value)] span
  | .string text span => node "StringLiteral" [("value", .text text)] span
  | .bool value span => node "BooleanLiteral" [("value", .bool value)] span
  | .name ident => node "Identifier" [("name", .text ident.name)] ident.span
  | .group inner span => node "Factor" [("op", .null), ("operand", inner.document)] span
  | .unary op operand span =>
    node "Factor" [("op", .text op.op.symbol), ("operand", operand.document)] span
  | .binary layer left op right span =>
    node layer.nodeType
      [("left", left.document), ("op", .text op.op.symbol), ("right", right.document)] span
  | .single layer inner span => node layer.nodeType [("left", inner.document)] span
  | .call callee arguments span =>
    node "Call" [("callee", .text callee.name), ("args", .list (Expr.documents arguments))] span
  | .input prompt span =>
    node "Input" [("prompt", match prompt with
      | some prompt => .text prompt.text
      | none => .null)] span
  | .element array index span =>
    node "ArrayAccess" [("array", .text array.name), ("index", index.document)] span
  | .charOf code span => node "CharCode" [("value", code.document)] span
  | .codeOf char span => node "IntCode" [("value", char.document)] span
  | .length value span => node "Length" [("value", value.document)] span
  | .read file count span =>
    node "FileRead" [("file", .text file.name), ("count", match count with
      | some count => count.document
      | none => .null)] span
  | .readLine file span => node "FileReadLine" [("file", .text file.name)] span
  | .atEnd file span => node "FileEOF" [("file", .text file.name)] span

def Expr.documents : List Expr → List Document
  | [] => []
  | e :: rest => e.document :: Expr.documents rest

end

mutual

def Stmt.document : Stmt → Document
  | .giveBack value span =>
    node "Return" [("value", (value.map Expr.document).getD .null)] span
  | .leave span => node "Break" [] span
  | .proceed span => node "Continue" [] span
  | .when condition body others otherwise span =>
    node "If" [("cond", condition.document), ("body", match body with
        | some body => body.document
        | none => .null), ("elifs", .list (OrWhen.documents others)), ("else", match otherwise with
        | some branch => branch.document
        | none => .null)] span
  | .loop condition body span =>
    node "While" [("cond", condition.document), ("body", match body with
      | some body => body.document
      | none => .null)] span
  | .range counter first last body span =>
    node "For" [("var", .text counter.name), ("start", first.document), ("end", last.document),
      ("body", match body with
        | some body => body.document
        | none => .null)] span
  | .assign target value span =>
    node "Assignment" [("target", .text target.name), ("value", value.document)] span
  | .advance target op span =>
    node "Postfix" [("target", .text target.name), ("op", .text op.op.symbol)] span
  | .print arguments newline span =>
    node "Print" [("args", .list (Expr.documents arguments)), ("newline", .bool newline)] span
  | .openFile target path mode span =>
    node "FileOpen"
      [("target", .text target.name), ("path", path.document), ("mode", mode.document)] span
  | .closeFile file span => node "FileClose" [("file", .text file.name)] span
  | .write file value newline span =>
    node (if newline then "FileWriteLine" else "FileWrite")
      [("file", .text file.name), ("value", value.document)] span
  | .allocate target size span =>
    node "ArrayDefine" [("target", .text target.name), ("size", size.document)] span
  | .collect target elements span =>
    node "ArrayDefine"
      [("target", .text target.name), ("elements", .list (Expr.documents elements))] span
  | .update array index slot value span =>
    node "ArrayUpdate"
      [("access", (Expr.element array index slot).document), ("value", value.document)] span
  | .split target source separator span =>
    node "Split" [("target", .text target.name), ("source", source.document),
      ("separator", separator.document)] span
  | .expr value => value.document

def Stmt.documents : List Stmt → List Document
  | [] => []
  | s :: rest => s.document :: Stmt.documents rest

def Body.document : Body → Document
  | ⟨statements, span⟩ => node "Body" [("statements", .list (Stmt.documents statements))] span

def OrWhen.document : OrWhen → Document
  | ⟨condition, body, span⟩ =>
    node "Elif" [("cond", condition.document), ("body", match body with
      | some body => body.document
      | none => .null)] span

def OrWhen.documents : List OrWhen → List Document
  | [] => []
  | branch :: rest => branch.document :: OrWhen.documents rest

def Otherwise.document : Otherwise → Document
  | ⟨body, span⟩ =>
    node "Else" [("body", match body with
      | some body => body.document
      | none => .null)] span

end

/-- An absent body is exported as null. -/
def Body.documentOf (body : Option Body) : Document := (body.map Body.document).getD .null

def FuncDef.document (f : FuncDef) : Document :=
  node "FuncDef" [("name", .text f.name.name),
    ("params", .list (f.params.map fun p => .text p.name)), ("body", Body.documentOf f.body)] f.span

def Program.document (p : Program) : Document :=
  node "Program" [("functions", .list (p.functions.map FuncDef.document)),
    ("body", Body.documentOf p.body)] p.span

def Operator.document (o : Operator) : Document :=
  node "Operator" [("symbol", .text o.op.symbol)] o.span

def Node.document : Node → Document
  | program p => p.document
  | function f => f.document
  | body b => b.document
  | stmt s => s.document
  | expr e => e.document
  | orWhen branch => branch.document
  | otherwise branch => branch.document
  | operator o => o.document

namespace Document

/-- Numbers in JSON have an exponent below `10⁻⁶` and from `10²¹` on. -/
def numberLayout : Decimal.Layout := { least := some (-6), bound := some 21, width := 1 }

/-- A character inside a JSON string; those that matter to HTML are written as codes. -/
def escapeChar (c : Char) : String :=
  match c with
  | '"' => "\\\""
  | '\\' => "\\\\"
  | '\n' => "\\n"
  | '\r' => "\\r"
  | '\t' => "\\t"
  | '<' | '>' | '&' | '\u2028' | '\u2029' => "\\u" ++ Text.hex 4 c.toNat
  | c =>
    if c.toNat = 0x08 then "\\b"
    else if c.toNat = 0x0c then "\\f"
    else if c.toNat < 0x20 then "\\u" ++ Text.hex 4 c.toNat
    else String.singleton c

def quoteText (s : String) : String :=
  "\"" ++ s.toList.foldl (fun acc c => acc ++ escapeChar c) "" ++ "\""

def newline (depth : Nat) : String := "\n" ++ "".pushn ' ' (2 * depth)

mutual

/-- The document as JSON with one item a line, or `none` if a number in it is not finite. -/
def render? (depth : Nat) : Document → Option String
  | null => some "null"
  | bool value => some (if value then "true" else "false")
  | int value => some (toString value.toInt)
  | float value => if value.isFinite then some (numberLayout.text value) else none
  | text value => some (quoteText value)
  | list [] => some "[]"
  | list (first :: rest) => do
    let first ← first.render? (depth + 1)
    let rest ← renderItems? (depth + 1) rest
    some ("[" ++ newline (depth + 1) ++ first ++ rest ++ newline depth ++ "]")
  | object [] => some "\x7b\x7d"
  | object ((key, value) :: rest) => do
    let value ← value.render? (depth + 1)
    let rest ← renderFields? (depth + 1) rest
    some ("\x7b" ++ newline (depth + 1) ++ quoteText key ++ ": " ++ value ++ rest ++
      newline depth ++ "\x7d")

def renderItems? (depth : Nat) : List Document → Option String
  | [] => some ""
  | item :: rest => do
    let item ← item.render? depth
    let rest ← renderItems? depth rest
    some ("," ++ newline depth ++ item ++ rest)

def renderFields? (depth : Nat) : List (String × Document) → Option String
  | [] => some ""
  | (key, value) :: rest => do
    let value ← value.render? depth
    let rest ← renderFields? depth rest
    some ("," ++ newline depth ++ quoteText key ++ ": " ++ value ++ rest)

end

def json? (d : Document) : Option String := d.render? 0

mutual

/-- Why a document is no JSON: its first number that is not finite, and the keys that lead to it. -/
def unwritable? : Document → Option String
  | float value =>
    if value.isFinite then none else some ("json: unsupported value: " ++ numberLayout.text value)
  | list items => unwritableItem? items
  | object fields =>
    (unwritableField? fields).map ("json: error calling MarshalJSON for type ast.Object: " ++ ·)
  | null | bool _ | int _ | text _ => none

def unwritableItem? : List Document → Option String
  | [] => none
  | item :: rest =>
    match item.unwritable? with
    | some reason => some reason
    | none => unwritableItem? rest

def unwritableField? : List (String × Document) → Option String
  | [] => none
  | (key, value) :: rest =>
    match value.unwritable? with
    | some reason => some ("encode " ++ key ++ ": " ++ reason)
    | none => unwritableField? rest

end

end Document

end Kotoba
