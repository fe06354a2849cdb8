import Kotoba.Syntax.Tree

/-! The parts of a tree: its children, their children and so on. -/
namespace Kotoba

/-- A name as a tree of its own. -/
def Ident.node (ident : Ident) : Node := .expr (.name ident)

/-- A prompt as a tree of its own. -/
def Prompt.node (prompt : Prompt) : Node := .expr (.string prompt.text prompt.span)

/-- The children of an expression, in the order in which they are written. -/
@[simp] def Expr.children : Expr → List Node
  | .int .. | .float .. | .string .. | .bool .. | .name .. => []
  | .group inner _ | .single _ inner _ | .charOf inner _ | .codeOf inner _ | .length inner _ =>
    [.expr inner]
  | .unary op operand _ => [.operator op, .expr operand]
  | .binary _ left op right _ => [.expr left, .operator op, .expr right]
  | .call callee arguments _ => callee.node :: arguments.map .expr
  | .input prompt _ => (prompt.map Prompt.node).toList
  | .element array index _ => [array.node, .expr index]
  | .read file count _ => file.node :: (count.map .expr).toList
  | .readLine file _ | .atEnd file _ => [file.node]

/-- A body that may be missing. -/
@[simp] def Body.nodes (body : Option Body) : List Node := (body.map .body).toList

/-- The children of a statement, in the order in which they are written. -/
@[simp] def Stmt.children : Stmt → List Node
  | .giveBack value _ => (value.map .expr).toList
  | .leave _ | .proceed _ => []
  | .when condition body others otherwise _ =>
    .expr condition ::
      (Body.nodes body ++ (others.map .orWhen ++ (otherwise.map .otherwise).toList))
  | .loop condition body _ => .expr condition :: Body.nodes body
  | .range counter first last body _ =>
    counter.node :: .expr first :: .expr last :: Body.nodes body
  | .assign target value _ => [target.node, .expr value]
  | .advance target op _ => [target.node, .operator op]
  | .print arguments _ _ => arguments.map .expr
  | .openFile target path mode _ => [target.node, .expr path, .expr mode]
  | .closeFile file _ => [file.node]
  | .write file value _ _ => [file.node, .expr value]
  | .allocate target size _ => [target.node, .expr size]
  | .collect target elements _ => target.node :: elements.map .expr
  | .update array index slot value _ => [.expr (.element array index slot), .expr value]
  | .split target source separator _ => [target.node, .expr source, .expr separator]
  | .expr value => [.expr value]

namespace Node

/-- The children of a tree, in the order in which they are written. -/
@[simp] def children : Node → List Node
  | program p => p.functions.map .function ++ Body.nodes p.body
  | function f => f.name.node :: (f.params.map Ident.node ++ Body.nodes f.body)
  | body b => b.statements.map .stmt
  | stmt s => s.children
  | expr e => e.children
  | orWhen branch => .expr branch.condition :: Body.nodes branch.body
  | otherwise branch => Body.nodes branch.body
  | operator _ => []

/-- The parts of a tree, the tree itself among them. -/
inductive Part (root : Node) : Node → Prop
  | self : Part root root
  | child {n m : Node} (whole : Part root n) (child : m ∈ n.children) : Part root m

namespace Part

variable {root n m : Node}

/-- The parts of a child are parts of the tree. -/
theorem of_child (hm : m ∈ root.children) (h : Part m n) : Part root n := by
  induction h with
  | self => exact .child .self hm
  | child _ hc ih => exact .child ih hc

theorem trans (h : Part root n) (hm : Part n m) : Part root m := by
  induction hm with
  | self => exact h
  | child _ hc ih => exact ih.child hc

/-- A part is the tree itself or a part of one of its children. -/
theorem cases_child (h : Part root n) : n = root ∨ ∃ m ∈ root.children, Part m n := by
  induction h with
  | self => exact .inl rfl
  | @child n m _ hc ih =>
    obtain rfl | ⟨c, hcr, hcn⟩ := ih
    · exact .inr ⟨m, hc, .self⟩
    · exact .inr ⟨c, hcr, hcn.child hc⟩

end Part

/-- Whether a tree is an expression or a statement. -/
def isStep : Node → Bool
  | expr _ | stmt _ => true
  | _ => false

/-- Whether a tree is one that a text can stand for. -/
def isWhole : Node → Bool
  | program _ | function _ | body _ | expr _ => true
  | _ => false

/-- Whether all parts of a tree are as given. -/
def Every (p : Node → Prop) (n : Node) : Prop := ∀ m, n.Part m → p m

namespace Every

variable {p : Node → Prop} {n m : Node}

theorem here (h : n.Every p) : p n := h n .self

theorem child (h : n.Every p) (hm : m ∈ n.children := by simp) : m.Every p :=
  fun part hp => h part (hp.of_child hm)

theorem node (hn : p n) (hc : ∀ m ∈ n.children, m.Every p) : n.Every p := by
  intro part hp
  obtain rfl | ⟨c, hcn, hcp⟩ := hp.cases_child
  · exact hn
  · exact hc c hcn part hcp

end Every

end Node

end Kotoba
