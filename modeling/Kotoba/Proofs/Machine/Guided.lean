import Kotoba.Proofs.Machine.Coupled

/-! Walks that keep to trees of a kind. What holds of the acts that fine parts ask for holds of the
walk over a tree all of whose parts are fine. -/
namespace Kotoba

namespace Machine

/-- Whether a span is that of a fine expression or statement. -/
def Stands (fine : Node → Prop) (span : Span) : Prop := ∃ n, fine n ∧ n.isStep ∧ n.span = span

/-- Whether some conditional loop is fine. -/
def AllowsLoops (fine : Node → Prop) : Prop :=
  ∃ condition body span, fine (.stmt (.loop condition body span))

/-- Whether an act is one that fine parts of a tree may ask for. -/
def Act.Suits (fine : Node → Prop) {α : Type} : Act α → Prop
  | arrayOf x | fileOf x => fine x.node
  | resolve x => Stands fine x.span
  | combine op _ _ span =>
    ∃ layer left o right, fine (.expr (.binary layer left o right span)) ∧ o.op = op
  | callable x _ span => fine x.node ∧ Stands fine span
  | slotIn _ _ _ indexSpan span => Stands fine indexSpan ∧ Stands fine span
  | readText file _ span | readLine file span | atEnd file span | closeFile file span
  | writeText file _ span => fine file.name.node ∧ Stands fine span
  | apply _ _ span | print _ span | readInput span | countOf _ span | rangeBound _ span
  | textOf _ _ span | openFile _ _ _ span | sizedArray _ span => Stands fine span
  | defineFunction f => Node.Every fine (.function f)
  | exhaust => AllowsLoops fine
  | refuse _ => False
  | slotValue .. | signal _ | isRaised | endRound | define .. | truthy _ | format _ | alloc _
  | setSlot .. => True

/-- The hosts of two walks that go together on trees with none but fine parts, with values that are
all `good`. -/
structure Guided {M N : Type → Type} [Monad M] [Monad N] (B : Bridge M N) (h : Host M) (k : Host N)
    (good : Value → Prop) (fine : Node → Prop) : Prop where
  plain : ∀ {v : Value}, v.isPlain → good v
  /-- Names are looked up before anything is done with them. -/
  settled : ∀ {x : String}, ¬ good (.reference x)
  note : ∀ n, n.Bears good → B.Rel (fun _ => True) (h.note n) (k.note n)
  act : ∀ {α : Type} (a : Act α), a.Suits fine → a.Takes good →
    B.Rel (a.Gives good) (h.act a) (k.act a)
  /-- The arguments of a call are evaluated between the look-up of the function and the call. -/
  invoke : ∀ (callee : Ident) (given : Nat) (span : Span) {x : M (List Value)}
    {y : N (List Value)}, fine callee.node → Stands fine span →
    B.Rel (fun vs => (∀ v ∈ vs, good v) ∧ vs.length = given) x y →
    B.Rel good
      (do let f ← h.act (.callable callee given span); let args ← x; h.call f args span)
      (do let f ← k.act (.callable callee given span); let args ← y; k.call f args span)

end Machine

namespace Node.Every

open Machine (Stands)

variable {fine : Node → Prop}

theorem atExpr {e : Expr} (h : (expr e).Every fine) : Stands fine e.span := ⟨_, h.here, rfl, rfl⟩

theorem atStmt {s : Stmt} (h : (stmt s).Every fine) : Stands fine s.span := ⟨_, h.here, rfl, rfl⟩

end Node.Every

namespace Machine

/-- What is asked for by a fine tree suits it. -/
theorem Asks.suits {fine : Node → Prop} {n : Node} {α : Type} {a : Act α} (h : Asks n a)
    (hp : n.Every fine) : a.Suits fine := by
  cases h with
  | name | unary | prompt | input | charOf | codeOf | length => exact hp.atExpr
  | binary => exact ⟨_, _, _, _, hp.here, rfl⟩
  | call | read | readLine | atEnd => exact ⟨hp.child.here, hp.atExpr⟩
  | elementArray | readFile | readLineFile | atEndFile | closeOf | writeFile => exact hp.child.here
  | @elementSlot array index =>
    have hindex : Node.Every fine (.expr index) := hp.child
    exact ⟨hindex.atExpr, hp.atExpr⟩
  | @readCount file count =>
    have hcount : Node.Every fine (.expr count) := hp.child
    exact hcount.atExpr
  | @advanceFrom target =>
    have htarget : Node.Every fine target.node := hp.child
    exact htarget.atExpr
  | advanceBy | print | openFile => exact hp.atStmt
  | @openPath _ e | @openMode _ _ e | @allocateSize _ e | @splitSource _ e
  | @splitSeparator _ _ e | @rangeFirst _ e | @rangeLast _ _ e =>
    have he : Node.Every fine (.expr e) := hp.child
    exact he.atExpr
  | closeFile | write => exact ⟨hp.child.here, hp.atStmt⟩
  | @updateArray array index _ slot =>
    have helement : Node.Every fine (.expr (.element array index slot)) := hp.child
    exact helement.child.here
  | @updateSlot array index _ slot =>
    have helement : Node.Every fine (.expr (.element array index slot)) := hp.child
    have hindex : Node.Every fine (.expr index) := helement.child
    exact ⟨hindex.atExpr, helement.atExpr⟩
  | loopEnd => exact ⟨_, _, _, hp.here⟩
  | _ => trivial

end Machine

theorem Node.within_of_every {fine : Node → Prop} {n : Node} (hp : n.Every fine) :
    n.Within fun _ a => a.Suits fine :=
  fun _ hpart _ _ ha => ha.suits fun m hm => hp m (hpart.trans hm)

namespace Machine.Guided

variable {M N : Type → Type} [Monad M] [Monad N] {B : Bridge M N} {h : Host M} {k : Host N}
  {good : Value → Prop} {fine : Node → Prop} {rounds rounds' : Nat}

/-- An input goes as its acts and notes do. -/
theorem coupled (G : Guided B h k good fine) : Coupled B h k good fun _ a => a.Suits fine where
  plain := G.plain
  names hx := absurd hx G.settled
  note n _ hn _ := G.note n hn
  act a hs ht _ := G.act a hs ht
  invoke callee given span _ _ hs := G.invoke callee given span hs.1 hs.2
  input prompt span hp := by
    rw [Host.eval, Host.eval]
    refine B.bind (G.note _ trivial) fun _ _ => B.bind (P := good) ?_ fun _ hv =>
      B.bind (G.note _ hv) fun _ _ => B.pure hv
    refine B.bind (P := fun _ => True) ?_ fun _ _ =>
      B.bind (G.act (.readInput span) (hp.asks .input) trivial) fun _ _ => B.pure (G.plain rfl)
    cases prompt with
    | none => exact B.pure trivial
    | some prompt => exact G.act (.print prompt.text span) (hp.asks .prompt) trivial

/-- The rounds of both walks need only agree where there are conditional loops. -/
theorem body? (G : Guided B h k good fine) (hr : AllowsLoops fine → rounds = rounds')
    (b : Option Body) (hp : ∀ body, b = some body → Node.Every fine (.body body)) :
    B.Rel (fun _ => True) (h.body? rounds b) (k.body? rounds' b) :=
  G.coupled.body? hr b fun body hb => Node.within_of_every (hp body hb)

theorem defineFunction (G : Guided B h k good fine) {f : FuncDef}
    (hp : Node.Every fine (.function f)) :
    B.Rel (fun _ => True) (h.defineFunction f) (k.defineFunction f) :=
  B.bind (G.act (.defineFunction f) hp trivial) fun _ _ => G.note _ trivial

/-- A name has a reference for its result, any other expression a value, and other trees none. -/
theorem node (G : Guided B h k good fine) (hr : AllowsLoops fine → rounds = rounds') {n : Node}
    (hn : Runnable n) (hp : n.Every fine) {P : Value → Prop} (hnothing : P .nothing)
    (hname : ∀ x, n = .expr (.name x) → P (.reference x.name))
    (hvalue : ∀ {x : M Value} {y : N Value}, B.Rel good x y → B.Rel P x y) :
    B.Rel P (h.node rounds n) (k.node rounds' n) :=
  G.coupled.node hr (Node.within_of_every hp)
    (fun f hf => G.defineFunction fun m hm => hp m (hf.trans hm)) hnothing hname hvalue
    fun hnot => absurd hn (by simp [hnot])

end Machine.Guided

end Kotoba
