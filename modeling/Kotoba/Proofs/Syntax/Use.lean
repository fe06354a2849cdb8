import Kotoba.Proofs.Syntax.Part

/-! What a tree makes use of: the names it mentions and binds, and the things outside of the
scopes that it touches. -/
namespace Kotoba

/-- Something a tree makes use of. -/
inductive Use where
  | mentions (name : String)
  | binds (name : String)
  /-- Jumps, or heeds a jump. -/
  | jumps
  /-- Prints. -/
  | prints
  /-- Reads a line of the input. -/
  | asks
  | files
  | arrays
  | splits
deriving DecidableEq

/-- Whether a use is of nothing but names and the order of execution. -/
def Use.isPure : Use → Bool
  | mentions _ | binds _ | jumps => true
  | prints | asks | files | arrays | splits => false

/-- Whether a use is one that expressions make. They neither bind nor print nor split, and they do
not jump. -/
def Use.isOfExpr : Use → Bool
  | mentions _ | asks | files | arrays => true
  | binds _ | jumps | prints | splits => false

/-- Whether one use is to mention a name that the other binds. -/
def Use.clashes : Use → Use → Bool
  | mentions x, binds y => x = y
  | _, _ => false

mutual

/-- What an expression makes use of. -/
def Expr.uses : Expr → List Use
  | .int .. | .float .. | .string .. | .bool .. => []
  | .name ident => [.mentions ident.name]
  | .group inner _ => inner.uses
  | .single _ inner _ => inner.uses
  | .unary _ operand _ => operand.uses
  | .binary _ left _ right _ => left.uses ++ right.uses
  | .call callee arguments _ => .mentions callee.name :: Expr.usesAll arguments
  | .input .. => [.asks]
  | .element array index _ => .arrays :: .mentions array.name :: index.uses
  | .charOf code _ => code.uses
  | .codeOf char _ => char.uses
  | .length value _ => value.uses
  | .read file none _ => [.files, .mentions file.name]
  | .read file (some count) _ => .files :: .mentions file.name :: count.uses
  | .readLine file _ => [.files, .mentions file.name]
  | .atEnd file _ => [.files, .mentions file.name]
termination_by structural e => e

def Expr.usesAll : List Expr → List Use
  | [] => []
  | e :: rest => e.uses ++ Expr.usesAll rest
termination_by structural es => es

end

mutual

/-- What a statement makes use of. -/
def Stmt.uses : Stmt → List Use
  | .giveBack (some value) _ => .jumps :: value.uses
  | .giveBack none _ | .leave _ | .proceed _ => [.jumps]
  | .when condition body others otherwise _ =>
    condition.uses ++ Body.uses? body ++ OrWhen.usesAll others ++ Otherwise.uses? otherwise
  | .loop condition body _ => .jumps :: (condition.uses ++ Body.uses? body)
  | .range counter first last body _ =>
    .jumps :: .mentions counter.name :: .binds counter.name ::
      (first.uses ++ last.uses ++ Body.uses? body)
  | .assign target value _ => .mentions target.name :: .binds target.name :: value.uses
  | .advance target _ _ => [.mentions target.name, .binds target.name]
  | .print arguments _ _ => .prints :: Expr.usesAll arguments
  | .openFile target path mode _ =>
    .files :: .mentions target.name :: .binds target.name :: (path.uses ++ mode.uses)
  | .closeFile file _ => [.files, .mentions file.name]
  | .write file value _ _ => .files :: .mentions file.name :: value.uses
  | .allocate target size _ =>
    .arrays :: .mentions target.name :: .binds target.name :: size.uses
  | .collect target elements _ =>
    .arrays :: .mentions target.name :: .binds target.name :: Expr.usesAll elements
  | .update array index _ value _ =>
    .arrays :: .mentions array.name :: (index.uses ++ value.uses)
  | .split target source separator _ =>
    .splits :: .mentions target.name :: .binds target.name :: (source.uses ++ separator.uses)
  | .expr value => value.uses
termination_by structural s => s

def Stmt.usesAll : List Stmt → List Use
  | [] => []
  | s :: rest => s.uses ++ Stmt.usesAll rest
termination_by structural ss => ss

/-- What a list of statements makes use of. -/
def Body.uses : Body → List Use
  | ⟨statements, _⟩ => Stmt.usesAll statements
termination_by structural b => b

def Body.uses? : Option Body → List Use
  | some body => body.uses
  | none => []
termination_by structural b => b

def OrWhen.usesAll : List OrWhen → List Use
  | [] => []
  | ⟨condition, body, _⟩ :: rest => condition.uses ++ Body.uses? body ++ OrWhen.usesAll rest
termination_by structural branches => branches

def Otherwise.uses? : Option Otherwise → List Use
  | some ⟨body, _⟩ => Body.uses? body
  | none => []
termination_by structural branch => branch

end

/-- What the definition of a function makes use of. -/
def FuncDef.uses (f : FuncDef) : List Use :=
  .mentions f.name.name :: (f.params.map (fun x => .mentions x.name) ++ Body.uses? f.body)

/-- What a tree makes use of. -/
def Node.uses : Node → List Use
  | .program p => p.functions.flatMap FuncDef.uses ++ Body.uses? p.body
  | .function f => f.uses
  | .body b => b.uses
  | .stmt s => s.uses
  | .expr e => e.uses
  | .orWhen branch => branch.condition.uses ++ Body.uses? branch.body
  | .otherwise branch => Body.uses? branch.body
  | .operator _ => []

theorem Expr.mem_usesAll {es : List Expr} {u : Use} :
    u ∈ Expr.usesAll es ↔ ∃ e ∈ es, u ∈ e.uses := by
  induction es with
  | nil => simp [Expr.usesAll]
  | cons e rest ih => simp [Expr.usesAll, ih]

theorem Stmt.mem_usesAll {ss : List Stmt} {u : Use} :
    u ∈ Stmt.usesAll ss ↔ ∃ s ∈ ss, u ∈ s.uses := by
  induction ss with
  | nil => simp [Stmt.usesAll]
  | cons s rest ih => simp [Stmt.usesAll, ih]

theorem OrWhen.mem_usesAll {branches : List OrWhen} {u : Use} :
    u ∈ OrWhen.usesAll branches ↔ ∃ b ∈ branches, u ∈ (Node.orWhen b).uses := by
  induction branches with
  | nil => simp [OrWhen.usesAll]
  | cons b rest ih =>
    obtain ⟨condition, body, span⟩ := b
    simp [OrWhen.usesAll, Node.uses, ih, or_assoc]

theorem Body.mem_uses_of_nodes {body : Option Body} {m : Node} (hm : m ∈ Body.nodes body)
    {u : Use} (hu : u ∈ m.uses) : u ∈ Body.uses? body := by
  cases body with
  | none => cases hm
  | some b =>
    obtain rfl : m = .body b := by simpa using hm
    simpa [Body.uses?, Node.uses] using hu

private theorem Expr.mem_uses_of_child (e : Expr) :
    ∀ m ∈ e.children, ∀ u ∈ m.uses, u ∈ e.uses := by
  cases e with
  | read file count span =>
    cases count <;> simp +contextual [Node.uses, Ident.node, Expr.uses]
  | input prompt span => cases prompt <;> simp [Node.uses, Prompt.node, Expr.uses]
  | call callee arguments span =>
    simp only [Expr.children, List.forall_mem_cons, List.forall_mem_map]
    exact ⟨by simp [Node.uses, Ident.node, Expr.uses], fun e he u hu => by
      simpa [Expr.uses] using .inr (Expr.mem_usesAll.mpr ⟨e, he, hu⟩)⟩
  | _ => simp +contextual [Node.uses, Ident.node, Expr.uses]

private theorem Stmt.mem_uses_of_child (s : Stmt) :
    ∀ m ∈ s.children, ∀ u ∈ m.uses, u ∈ s.uses := by
  cases s with
  | giveBack value span => cases value <;> simp +contextual [Node.uses, Stmt.uses]
  | print arguments newline span =>
    simp only [Stmt.children, List.forall_mem_map]
    exact fun e he u hu => by simpa [Stmt.uses] using .inr (Expr.mem_usesAll.mpr ⟨e, he, hu⟩)
  | collect target elements span =>
    simp only [Stmt.children, List.forall_mem_cons, List.forall_mem_map]
    exact ⟨by simp [Node.uses, Ident.node, Expr.uses, Stmt.uses], fun e he u hu => by
      simpa [Stmt.uses] using .inr (.inr (.inr (Expr.mem_usesAll.mpr ⟨e, he, hu⟩)))⟩
  | «when» condition body others otherwise span =>
    intro m hm u hu
    simp only [Stmt.children, List.mem_cons, List.mem_append, List.mem_map] at hm
    simp only [Stmt.uses, List.mem_append]
    obtain rfl | hm | ⟨b, hb, rfl⟩ | hm := hm
    · exact .inl (.inl (.inl hu))
    · exact .inl (.inl (.inr (Body.mem_uses_of_nodes hm hu)))
    · exact .inl (.inr (OrWhen.mem_usesAll.mpr ⟨b, hb, hu⟩))
    · cases otherwise with
      | none => cases hm
      | some branch =>
        obtain rfl : m = .otherwise branch := by simpa using hm
        obtain ⟨body, span⟩ := branch
        exact .inr (by simpa [Node.uses, Otherwise.uses?] using hu)
  | loop condition body span =>
    intro m hm u hu
    simp only [Stmt.children, List.mem_cons] at hm
    simp only [Stmt.uses, List.mem_cons, List.mem_append]
    obtain rfl | hm := hm
    · exact .inr (.inl hu)
    · exact .inr (.inr (Body.mem_uses_of_nodes hm hu))
  | range counter first last body span =>
    intro m hm u hu
    simp only [Stmt.children, List.mem_cons] at hm
    simp only [Stmt.uses, List.mem_cons, List.mem_append]
    obtain rfl | rfl | rfl | hm := hm
    · exact .inr (.inl (by simpa [Node.uses, Ident.node, Expr.uses] using hu))
    · exact .inr (.inr (.inr (.inl (.inl hu))))
    · exact .inr (.inr (.inr (.inl (.inr hu))))
    · exact .inr (.inr (.inr (.inr (Body.mem_uses_of_nodes hm hu))))
  | _ => simp +contextual [Node.uses, Ident.node, Expr.uses, Stmt.uses]

/-- What a child makes use of, the tree does. -/
theorem Node.mem_uses_of_child {n m : Node} (hm : m ∈ n.children) {u : Use} (hu : u ∈ m.uses) :
    u ∈ n.uses := by
  cases n with
  | expr e => exact e.mem_uses_of_child m hm u hu
  | stmt s => exact s.mem_uses_of_child m hm u hu
  | program p =>
    obtain hm | hm := List.mem_append.mp hm
    · obtain ⟨f, hf, rfl⟩ := List.mem_map.mp hm
      exact List.mem_append_left _ (List.mem_flatMap.mpr ⟨f, hf, hu⟩)
    · exact List.mem_append_right _ (Body.mem_uses_of_nodes hm hu)
  | function f =>
    obtain _ | ⟨_, hm⟩ := hm
    · obtain rfl : u = .mentions f.name.name := by simpa [uses, Ident.node, Expr.uses] using hu
      exact List.mem_cons_self
    obtain hm | hm := List.mem_append.mp hm
    · obtain ⟨x, hx, rfl⟩ := List.mem_map.mp hm
      obtain rfl : u = .mentions x.name := by simpa [uses, Ident.node, Expr.uses] using hu
      exact List.mem_cons_of_mem _ (List.mem_append_left _ (List.mem_map.mpr ⟨x, hx, rfl⟩))
    · exact List.mem_cons_of_mem _ (List.mem_append_right _ (Body.mem_uses_of_nodes hm hu))
  | body b =>
    obtain ⟨s, hs, rfl⟩ := List.mem_map.mp hm
    obtain ⟨statements, span⟩ := b
    simpa [uses, Body.uses] using Stmt.mem_usesAll.mpr ⟨s, hs, hu⟩
  | orWhen branch =>
    obtain _ | ⟨_, hm⟩ := hm
    · exact List.mem_append_left _ hu
    · exact List.mem_append_right _ (Body.mem_uses_of_nodes hm hu)
  | otherwise branch => exact Body.mem_uses_of_nodes hm hu
  | operator op => cases hm

theorem Node.Part.mem_uses {n m : Node} (h : n.Part m) {u : Use} (hu : u ∈ m.uses) :
    u ∈ n.uses := by
  induction h with
  | self => exact hu
  | child _ hc ih => exact ih (mem_uses_of_child hc hu)

mutual

theorem Expr.isOfExpr_of_mem (e : Expr) : ∀ u ∈ e.uses, u.isOfExpr := by
  cases e with
  | int | float | string | bool => simp [Expr.uses]
  | name ident => simp [Expr.uses, Use.isOfExpr]
  | group inner span => simpa [Expr.uses] using inner.isOfExpr_of_mem
  | single layer inner span => simpa [Expr.uses] using inner.isOfExpr_of_mem
  | unary op operand span => simpa [Expr.uses] using operand.isOfExpr_of_mem
  | binary layer left op right span =>
    simpa [Expr.uses, or_imp, forall_and] using ⟨left.isOfExpr_of_mem, right.isOfExpr_of_mem⟩
  | call callee arguments span =>
    simpa [Expr.uses, Use.isOfExpr] using Expr.isOfExpr_of_mem_all arguments
  | input prompt span => simp [Expr.uses, Use.isOfExpr]
  | element array index span => simpa [Expr.uses, Use.isOfExpr] using index.isOfExpr_of_mem
  | charOf code span => simpa [Expr.uses] using code.isOfExpr_of_mem
  | codeOf char span => simpa [Expr.uses] using char.isOfExpr_of_mem
  | length value span => simpa [Expr.uses] using value.isOfExpr_of_mem
  | read file count span =>
    cases count with
    | none => simp [Expr.uses, Use.isOfExpr]
    | some count => simpa [Expr.uses, Use.isOfExpr] using count.isOfExpr_of_mem
  | readLine file span => simp [Expr.uses, Use.isOfExpr]
  | atEnd file span => simp [Expr.uses, Use.isOfExpr]

theorem Expr.isOfExpr_of_mem_all (es : List Expr) : ∀ u ∈ Expr.usesAll es, u.isOfExpr := by
  cases es with
  | nil => simp [Expr.usesAll]
  | cons e rest =>
    simpa [Expr.usesAll, or_imp, forall_and] using
      ⟨e.isOfExpr_of_mem, Expr.isOfExpr_of_mem_all rest⟩

end

theorem Expr.jumps_not_mem_uses (e : Expr) : .jumps ∉ e.uses := fun h =>
  nomatch e.isOfExpr_of_mem _ h

theorem Expr.jumps_not_mem_usesAll (es : List Expr) : .jumps ∉ Expr.usesAll es := fun h =>
  nomatch Expr.isOfExpr_of_mem_all es _ h

/-- Whether a statement neither jumps nor holds other statements. -/
def Stmt.isSimple : Stmt → Bool
  | .giveBack .. | .leave _ | .proceed _ | .when .. | .loop .. | .range .. => false
  | _ => true

theorem Stmt.jumps_not_mem_uses (s : Stmt) (hs : s.isSimple) : .jumps ∉ s.uses := by
  have he := Expr.jumps_not_mem_uses
  have hes := Expr.jumps_not_mem_usesAll
  cases s <;> simp_all [Stmt.uses, Stmt.isSimple]

end Kotoba
