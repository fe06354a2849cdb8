import Kotoba.Proofs.Syntax.Bare
import Kotoba.Proofs.Syntax.Part
import Kotoba.Proofs.Text.Json

/-! What is exported of a tree: all of it but the places of children of which only a name is
written. Those places are left out of its outline. Beside it stand the fields under which
expressions and statements are exported, and what can be told by them. -/
namespace Kotoba

theorem Position.text_cancel {p q : Position} {x y : List Char} (hx : Text.EndsNumeral x)
    (hy : Text.EndsNumeral y) (h : p.text.toList ++ x = q.text.toList ++ y) : p = q ∧ x = y := by
  have htext : ∀ p : Position,
      p.text.toList = (toString p.line).toList ++ ':' :: (toString p.column).toList := by
    intro p
    rw [Position.text, String.toList_append, String.toList_append, List.append_assoc]
    rfl
  rw [htext, htext] at h
  simp only [List.append_assoc, List.cons_append] at h
  obtain ⟨hline, h⟩ := Text.toString_int_cancel (Text.endsNumeral_cons rfl)
    (Text.endsNumeral_cons rfl) h
  obtain ⟨hcolumn, hxy⟩ := Text.toString_int_cancel hx hy (List.cons.inj h).2
  cases p
  cases q
  exact ⟨by simp_all, hxy⟩

namespace Span

/-- What is written after the start. -/
private def remainder (s : Span) : List Char :=
  if s.stop = s.start then [] else " to ".toList ++ s.stop.text.toList

private theorem endsNumeral_remainder (s : Span) : Text.EndsNumeral s.remainder := by
  unfold remainder
  split
  · exact Text.endsNumeral_nil
  · exact Text.endsNumeral_cons rfl

private theorem toList_text {s : Span} (h : s.stop.isUnknown = false) :
    s.text.toList = s.start.text.toList ++ s.remainder := by
  unfold text remainder
  by_cases heq : s.stop = s.start
  · simp [heq]
  · simp [h, heq]

/-- A span whose end is known is told by its text. -/
theorem text_injective {s t : Span} (hs : s.stop.isUnknown = false)
    (ht : t.stop.isUnknown = false) (h : s.text = t.text) : s = t := by
  have hchars := congrArg String.toList h
  rw [toList_text hs, toList_text ht] at hchars
  obtain ⟨hstart, hrest⟩ := Position.text_cancel (endsNumeral_remainder s)
    (endsNumeral_remainder t) hchars
  have hstop : s.stop = t.stop := by
    unfold remainder at hrest
    split at hrest
    · next hpoint =>
      split at hrest
      · next hpoint' => rw [hpoint, hpoint', hstart]
      · simp at hrest
    · split at hrest
      · simp at hrest
      · have htext := List.append_cancel_left hrest
        exact (Position.text_cancel Text.endsNumeral_nil Text.endsNumeral_nil
          (congrArg (· ++ []) htext)).1
  cases s
  cases t
  simp_all

end Span

/-- Operators that the language has are told by their symbols. -/
theorem Op.symbol_injective {o p : Op} (ho : o ∈ known) (hp : p ∈ known)
    (h : o.symbol = p.symbol) : o = p := by
  have hall : ∀ o ∈ known, ∀ p ∈ known, o.symbol = p.symbol → o = p := by decide
  exact hall o ho p hp h

theorem Layer.nodeType_injective {l k : Layer} (h : l.nodeType = k.nodeType) : l = k := by
  cases l <;> cases k <;> first | rfl | simp [nodeType] at h

mutual

/-- An expression without the places of what is written by name only. -/
def Expr.outline : Expr → Expr
  | .int value span => .int value span
  | .float value span => .float value span
  | .string text span => .string text span
  | .bool value span => .bool value span
  | .name ident => .name ident
  | .group inner span => .group inner.outline span
  | .unary op operand span => .unary op.bare operand.outline span
  | .binary layer left op right span => .binary layer left.outline op.bare right.outline span
  | .single layer inner span => .single layer inner.outline span
  | .call callee arguments span => .call callee.bare (Expr.outlines arguments) span
  | .input prompt span => .input (prompt.map Prompt.bare) span
  | .element array index span => .element array.bare index.outline span
  | .charOf code span => .charOf code.outline span
  | .codeOf char span => .codeOf char.outline span
  | .length value span => .length value.outline span
  | .read file none span => .read file.bare none span
  | .read file (some count) span => .read file.bare (some count.outline) span
  | .readLine file span => .readLine file.bare span
  | .atEnd file span => .atEnd file.bare span
termination_by structural e => e

def Expr.outlines : List Expr → List Expr
  | [] => []
  | e :: rest => e.outline :: Expr.outlines rest
termination_by structural es => es

end

mutual

/-- A statement without the places of what is written by name only. -/
def Stmt.outline : Stmt → Stmt
  | .giveBack value span => .giveBack (value.map Expr.outline) span
  | .leave span => .leave span
  | .proceed span => .proceed span
  | .when condition body others otherwise span =>
    .when condition.outline (Body.outline? body) (OrWhen.outlines others)
      (Otherwise.outline? otherwise) span
  | .loop condition body span => .loop condition.outline (Body.outline? body) span
  | .range counter first last body span =>
    .range counter.bare first.outline last.outline (Body.outline? body) span
  | .assign target value span => .assign target.bare value.outline span
  | .advance target op span => .advance target.bare op.bare span
  | .print arguments newline span => .print (Expr.outlines arguments) newline span
  | .openFile target path mode span => .openFile target.bare path.outline mode.outline span
  | .closeFile file span => .closeFile file.bare span
  | .write file value newline span => .write file.bare value.outline newline span
  | .allocate target size span => .allocate target.bare size.outline span
  | .collect target elements span => .collect target.bare (Expr.outlines elements) span
  | .update array index slot value span => .update array.bare index.outline slot value.outline span
  | .split target source separator span =>
    .split target.bare source.outline separator.outline span
  | .expr value => .expr value.outline
termination_by structural s => s

def Stmt.outlines : List Stmt → List Stmt
  | [] => []
  | s :: rest => s.outline :: Stmt.outlines rest
termination_by structural ss => ss

def Body.outline : Body → Body
  | ⟨statements, span⟩ => ⟨Stmt.outlines statements, span⟩
termination_by structural b => b

def Body.outline? : Option Body → Option Body
  | some body => some body.outline
  | none => none
termination_by structural b => b

def OrWhen.outlines : List OrWhen → List OrWhen
  | [] => []
  | ⟨condition, body, span⟩ :: rest =>
    ⟨condition.outline, Body.outline? body, span⟩ :: OrWhen.outlines rest
termination_by structural branches => branches

def Otherwise.outline? : Option Otherwise → Option Otherwise
  | some ⟨body, span⟩ => some ⟨Body.outline? body, span⟩
  | none => none
termination_by structural branch => branch

end

def FuncDef.outline (f : FuncDef) : FuncDef where
  name := f.name.bare
  params := f.params.map Ident.bare
  body := Body.outline? f.body
  span := f.span

def Program.outline (p : Program) : Program where
  functions := p.functions.map FuncDef.outline
  body := Body.outline? p.body
  span := p.span

/-- A tree without the places of what is written by name only: names where something is bound,
called or looked up as an array or a file, operators and prompts. -/
def Node.outline : Node → Node
  | program p => .program p.outline
  | function f => .function f.outline
  | body b => .body b.outline
  | stmt s => .stmt s.outline
  | expr e => .expr e.outline
  | orWhen branch => .orWhen ⟨branch.condition.outline, Body.outline? branch.body, branch.span⟩
  | otherwise branch => .otherwise ⟨Body.outline? branch.body, branch.span⟩
  | operator o => .operator o

/-- The parts of a tree that can be told by what is exported: their ends are known, operators are
those of the language, and there is no float. -/
structure Node.Plain (m : Node) : Prop where
  start : m.span.start.isUnknown = false
  stop : m.span.stop.isUnknown = false
  known : ∀ o, m = .operator o → o.op ∈ Op.known
  exact : ∀ value span, m ≠ .expr (.float value span)

/-- A tree all parts of which can be told. -/
def Node.Clear (n : Node) : Prop := ∀ m, n.Part m → m.Plain

theorem Node.Clear.child {n m : Node} (h : n.Clear) (hm : m ∈ n.children := by simp) : m.Clear :=
  fun part hp => h part (hp.of_child hm)

theorem Node.Clear.plain {n : Node} (h : n.Clear) : n.Plain := h n .self

namespace Document

variable {kind kind' : String} {fields fields' : List (String × Document)} {n m : Node}

theorem node_inj (hn : n.Clear) (hm : m.Clear)
    (h : node kind fields n.span = node kind' fields' m.span) :
    kind = kind' ∧ fields = fields' ∧ n.span = m.span := by
  have hspan : ∀ {n : Node}, n.Clear → n.span.isUnknown = false := fun hn => by
    simp [Span.isUnknown, hn.plain.start]
  simp only [node, hspan hn, hspan hm, Bool.false_eq_true, if_false, object.injEq] at h
  obtain ⟨hhead, hlast⟩ := List.append_inj' h rfl
  simp only [List.cons.injEq, Prod.mk.injEq, text.injEq, true_and, and_true] at hhead hlast
  exact ⟨hhead.1, hhead.2, Span.text_injective hn.plain.stop hm.plain.stop hlast⟩

end Document

theorem Ident.bare_eq {a b : Ident} (h : a.name = b.name) : a.bare = b.bare := by
  rw [bare, bare, h]

theorem Operator.bare_eq {o p : Operator} (ho : (Node.operator o).Clear)
    (hp : (Node.operator p).Clear) (h : o.op.symbol = p.op.symbol) : o.bare = p.bare := by
  rw [bare, bare, Op.symbol_injective (ho.plain.known o rfl) (hp.plain.known p rfl) h]

/-- Prompts that may be missing. -/
theorem Prompt.bare_eq {p q : Option Prompt}
    (h : (p.map fun p => Document.text p.text).getD .null =
      (q.map fun p => Document.text p.text).getD .null) : p.map bare = q.map bare := by
  cases p <;> cases q <;> simp_all [bare]

/-- The fields under which an expression is exported. -/
def Expr.fields : Expr → List (String × Document)
  | .int value _ => [("int", .int value)]
  | .float value _ => [("float", .float value)]
  | .string text _ => [("value", .text text)]
  | .bool value _ => [("value", .bool value)]
  | .name ident => [("name", .text ident.name)]
  | .group inner _ => [("op", .null), ("operand", inner.document)]
  | .unary op operand _ => [("op", .text op.op.symbol), ("operand", operand.document)]
  | .binary _ left op right _ =>
    [("left", left.document), ("op", .text op.op.symbol), ("right", right.document)]
  | .single _ inner _ => [("left", inner.document)]
  | .call callee arguments _ =>
    [("callee", .text callee.name), ("args", .list (Expr.documents arguments))]
  | .input prompt _ => [("prompt", (prompt.map fun p => .text p.text).getD .null)]
  | .element array index _ => [("array", .text array.name), ("index", index.document)]
  | .charOf code _ => [("value", code.document)]
  | .codeOf char _ => [("value", char.document)]
  | .length value _ => [("value", value.document)]
  | .read file count _ =>
    [("file", .text file.name), ("count", (count.map Expr.document).getD .null)]
  | .readLine file _ => [("file", .text file.name)]
  | .atEnd file _ => [("file", .text file.name)]

theorem Expr.document_eq (e : Expr) : e.document = Document.node e.nodeType e.fields e.span := by
  cases e with
  | input prompt span => cases prompt <;> rfl
  | read file count span => cases count <;> rfl
  | _ => rfl

/-- Which of the constructors an expression is made by, told by its type and its fields. -/
def Expr.indexOf (kind : String) (fields : List (String × Document)) : Nat :=
  match kind, fields with
  | "NumericLiteral", ("int", _) :: _ => 0
  | "NumericLiteral", _ => 1
  | "StringLiteral", _ => 2
  | "BooleanLiteral", _ => 3
  | "Identifier", _ => 4
  | "Factor", (_, .null) :: _ => 5
  | "Factor", _ => 6
  | "Call", _ => 9
  | "Input", _ => 10
  | "ArrayAccess", _ => 11
  | "CharCode", _ => 12
  | "IntCode", _ => 13
  | "Length", _ => 14
  | "FileRead", _ => 15
  | "FileReadLine", _ => 16
  | "FileEOF", _ => 17
  | _, [_] => 8
  | _, _ => 7

theorem Expr.indexOf_fields (e : Expr) : Expr.indexOf e.nodeType e.fields = e.ctorIdx := by
  cases e with
  | binary layer left op right span => cases layer <;> rfl
  | single layer inner span => cases layer <;> rfl
  | _ => rfl

theorem Expr.document_ne_null (e : Expr) : e.document ≠ .null := by
  rw [e.document_eq]
  rintro ⟨⟩

theorem Expr.outline_read (file : Ident) (count : Option Expr) (span : Span) :
    (Expr.read file count span).outline = .read file.bare (count.map Expr.outline) span := by
  cases count <;> rfl

/-- A last branch that may be missing. -/
def Otherwise.documentOf (branch : Option Otherwise) : Document :=
  (branch.map Otherwise.document).getD .null

/-- The fields under which a statement is exported. -/
def Stmt.fields : Stmt → List (String × Document)
  | .giveBack value _ => [("value", (value.map Expr.document).getD .null)]
  | .leave _ | .proceed _ => []
  | .when condition body others otherwise _ =>
    [("cond", condition.document), ("body", Body.documentOf body),
      ("elifs", .list (OrWhen.documents others)), ("else", Otherwise.documentOf otherwise)]
  | .loop condition body _ => [("cond", condition.document), ("body", Body.documentOf body)]
  | .range counter first last body _ =>
    [("var", .text counter.name), ("start", first.document), ("end", last.document),
      ("body", Body.documentOf body)]
  | .assign target value _ => [("target", .text target.name), ("value", value.document)]
  | .advance target op _ => [("target", .text target.name), ("op", .text op.op.symbol)]
  | .print arguments newline _ =>
    [("args", .list (Expr.documents arguments)), ("newline", .bool newline)]
  | .openFile target path mode _ =>
    [("target", .text target.name), ("path", path.document), ("mode", mode.document)]
  | .closeFile file _ => [("file", .text file.name)]
  | .write file value _ _ => [("file", .text file.name), ("value", value.document)]
  | .allocate target size _ => [("target", .text target.name), ("size", size.document)]
  | .collect target elements _ =>
    [("target", .text target.name), ("elements", .list (Expr.documents elements))]
  | .update array index slot value _ =>
    [("access", (Expr.element array index slot).document), ("value", value.document)]
  | .split target source separator _ =>
    [("target", .text target.name), ("source", source.document),
      ("separator", separator.document)]
  | .expr value => value.fields

theorem Stmt.document_eq (s : Stmt) : s.document = Document.node s.nodeType s.fields s.span := by
  cases s with
  | «when» condition body others otherwise span => cases body <;> cases otherwise <;> rfl
  | loop condition body span => cases body <;> rfl
  | range counter first last body span => cases body <;> rfl
  | expr value => exact value.document_eq
  | _ => rfl

theorem Body.document_eq (b : Body) : b.document =
    Document.node "Body" [("statements", .list (Stmt.documents b.statements))] b.span := by
  cases b with
  | mk statements span => rfl

theorem OrWhen.document_eq (branch : OrWhen) : branch.document = Document.node "Elif"
    [("cond", branch.condition.document), ("body", Body.documentOf branch.body)] branch.span := by
  cases branch with
  | mk condition body span => cases body <;> rfl

theorem Otherwise.document_eq (branch : Otherwise) : branch.document =
    Document.node "Else" [("body", Body.documentOf branch.body)] branch.span := by
  cases branch with
  | mk body span => cases body <;> rfl

theorem Body.document_ne_null (b : Body) : b.document ≠ .null := by
  rw [b.document_eq]
  rintro ⟨⟩

theorem Otherwise.document_ne_null (branch : Otherwise) : branch.document ≠ .null := by
  rw [branch.document_eq]
  rintro ⟨⟩

/-- Which of the constructors a statement is made by, told by its type and its fields. -/
def Stmt.indexOf (kind : String) (fields : List (String × Document)) : Nat :=
  match kind, fields with
  | "Return", _ => 0
  | "Break", _ => 1
  | "Continue", _ => 2
  | "If", _ => 3
  | "While", _ => 4
  | "For", _ => 5
  | "Assignment", _ => 6
  | "Postfix", _ => 7
  | "Print", _ => 8
  | "FileOpen", _ => 9
  | "FileClose", _ => 10
  | "FileWrite", _ | "FileWriteLine", _ => 11
  | "ArrayDefine", [_, ("size", _)] => 12
  | "ArrayDefine", _ => 13
  | "ArrayUpdate", _ => 14
  | "Split", _ => 15
  | _, _ => 16

theorem Stmt.indexOf_fields (s : Stmt) : Stmt.indexOf s.nodeType s.fields = s.ctorIdx := by
  cases s with
  | write file value newline span => cases newline <;> rfl
  | expr value =>
    cases value with
    | binary layer left op right span => cases layer <;> rfl
    | single layer inner span => cases layer <;> rfl
    | _ => rfl
  | _ => rfl

end Kotoba
