import Kotoba.Proofs.Machine.Finite
import Kotoba.Proofs.Machine.Stack
import Kotoba.Proofs.Syntax.Part

/-! Expressions that only look at the machine, and statements that do all of their work or nothing.
Whatever can go wrong with an assignment or the like goes wrong before anything is changed. -/
namespace Kotoba

namespace Step

variable {σ ε α β γ : Type} {part : σ → γ}

/-- Whether a computation leaves the state as it is. It does not give up. -/
def Looks (x : Step σ ε α) : Prop := ∀ s, (∃ a, x s = .ok a s) ∨ ∃ e, x s = .error e s

/-- Whether a computation cannot but succeed, and keeps a part of the state. -/
def Succeeds (part : σ → γ) (x : Step σ ε α) : Prop :=
  ∀ s, ∃ a t, x s = .ok a t ∧ part t = part s

/-- Whether a computation that does not succeed leaves the state as it is, and one that does keeps a
part of it. It does not give up. -/
def IsAtomic (part : σ → γ) (x : Step σ ε α) : Prop :=
  ∀ s, (∃ a t, x s = .ok a t ∧ part t = part s) ∨ ∃ e, x s = .error e s

namespace Looks

theorem pure (a : α) : Looks (Pure.pure a : Step σ ε α) := fun _ => .inl ⟨a, rfl⟩

theorem fail (e : ε) : Looks (Step.fail e : Step σ ε α) := fun _ => .inr ⟨e, rfl⟩

theorem get : Looks (Step.get : Step σ ε σ) := fun s => .inl ⟨s, rfl⟩

theorem gets (f : σ → α) : Looks (Step.gets f : Step σ ε α) := fun s => .inl ⟨f s, rfl⟩

/-- What comes after a look starts from the same state, or the look has failed there. -/
theorem bind_cases {x : Step σ ε α} (hx : Looks x) (f : α → Step σ ε β) (s : σ) :
    (∃ a, (x >>= f) s = f a s) ∨ ∃ e, (x >>= f) s = .error e s := by
  rw [bind_apply]
  rcases hx s with ⟨a, ha⟩ | ⟨e, he⟩
  · exact .inl ⟨a, by rw [ha]⟩
  · exact .inr ⟨e, by rw [he]⟩

theorem bind {x : Step σ ε α} {f : α → Step σ ε β} (hx : Looks x) (hf : ∀ a, Looks (f a)) :
    Looks (x >>= f) := by
  intro s
  rcases hx.bind_cases f s with ⟨a, ha⟩ | hfails
  · rw [ha]
    exact hf a s
  · exact .inr hfails

theorem isAtomic {x : Step σ ε α} (hx : Looks x) : IsAtomic part x := by
  intro s
  rcases hx s with ⟨a, ha⟩ | hfails
  · exact .inl ⟨a, s, ha, rfl⟩
  · exact .inr hfails

/-- Before anything is changed, one may look. -/
theorem bind_isAtomic {x : Step σ ε α} {f : α → Step σ ε β} (hx : Looks x)
    (hf : ∀ a, IsAtomic part (f a)) : IsAtomic part (x >>= f) := by
  intro s
  rcases hx.bind_cases f s with ⟨a, ha⟩ | hfails
  · rw [ha]
    exact hf a s
  · exact .inr hfails

end Looks

namespace Succeeds

theorem pure (a : α) : Succeeds part (Pure.pure a : Step σ ε α) := fun s => ⟨a, s, rfl, rfl⟩

theorem modify {f : σ → σ} (hf : ∀ s, part (f s) = part s) :
    Succeeds part (Step.modify f : Step σ ε Unit) := fun s => ⟨(), f s, rfl, hf s⟩

theorem modifyGet {f : σ → α × σ} (hf : ∀ s, part (f s).2 = part s) :
    Succeeds part (Step.modifyGet f : Step σ ε α) := fun s => ⟨(f s).1, (f s).2, rfl, hf s⟩

theorem bind {x : Step σ ε α} {f : α → Step σ ε β} (hx : Succeeds part x)
    (hf : ∀ a, Succeeds part (f a)) : Succeeds part (x >>= f) := by
  intro s
  obtain ⟨a, t, ha, ht⟩ := hx s
  obtain ⟨b, u, hb, hu⟩ := hf a t
  exact ⟨b, u, by rw [bind_apply, ha]; exact hb, hu.trans ht⟩

theorem isAtomic {x : Step σ ε α} (hx : Succeeds part x) : IsAtomic part x := fun s => .inl (hx s)

end Succeeds

/-- After something was changed, nothing may fail. -/
theorem IsAtomic.bind {x : Step σ ε α} {f : α → Step σ ε β} (hx : IsAtomic part x)
    (hf : ∀ a, Succeeds part (f a)) : IsAtomic part (x >>= f) := by
  intro s
  rw [bind_apply]
  rcases hx s with ⟨a, t, ha, ht⟩ | ⟨e, he⟩
  · obtain ⟨b, u, hb, hu⟩ := hf a t
    rw [ha]
    exact .inl ⟨b, u, hb, hu.trans ht⟩
  · rw [he]
    exact .inr ⟨e, rfl⟩

end Step

/-- Whether a tree is a call, or an expression that reads the input or a file. -/
def Node.isActive : Node → Bool
  | expr (.call ..) | expr (.input ..) | expr (.read ..) | expr (.readLine ..)
  | expr (.atEnd ..) => true
  | _ => false

/-- Whether a tree has neither calls in it nor expressions that read. -/
def Node.Quiet (n : Node) : Prop := n.Every fun m => m.isActive = false

/-- Whether a statement binds a name, writes a slot of an array or prints, by itself. -/
def Stmt.isElementary : Stmt → Bool
  | .assign .. | .advance .. | .allocate .. | .collect .. | .update .. | .split .. | .print .. =>
    true
  | _ => false

namespace Machine

open Step

section Looking

theorem looks_fault {α : Type} (f : Fault) (span : Span) : Looks (Eval.fault f span : Eval α) :=
  Looks.fail _

theorem looks_ofExcept {α : Type} (span : Span) (x : Except Fault α) :
    Looks (Eval.ofExcept span x) := by
  cases x with
  | ok a => exact .pure a
  | error f => exact looks_fault f span

theorem looks_resolve (name : Ident) : Looks (Eval.resolve name) :=
  .bind .get fun _ => looks_ofExcept _ _

/-- What is said of a value in a message is read off. -/
theorem looks_describing {α : Type} (f : Bytes → Fault) (v : Value) (span : Span) :
    Looks (do Eval.fault (f (← Eval.describe v)) span : Eval α) :=
  .bind (.gets _) fun _ => looks_fault _ _

theorem looks_applied (rule : Store → Value → Except Fault Value) (v : Value) (span : Span) :
    Looks (applied rule v span) :=
  .bind (.gets _) fun _ => looks_ofExcept _ _

theorem looks_textOf (role : String) (v : Value) (span : Span) : Looks (textOf role v span) := by
  cases v with
  | string text => exact .pure text
  | _ => exact looks_describing _ _ _

theorem looks_slotOf (array : Ident) {index : Eval Value} (h : Looks index)
    (indexSpan span : Span) : Looks (slotOf array index indexSpan span) := by
  refine .bind (looks_resolve array) fun v => ?_
  cases v with
  | array a =>
    refine .bind h fun i => ?_
    cases i with
    | int n =>
      refine .bind (.gets _) fun size => ?_
      split
      · exact .pure _
      · exact looks_fault _ _
    | _ => exact looks_describing _ _ _
  | _ => exact looks_describing _ _ _

theorem looks_settled (span : Span) {x : Eval Value} (h : Looks x) : Looks (settled span x) := by
  refine .bind h fun v => ?_
  cases v with
  | reference name => exact looks_resolve _
  | _ => exact .pure _

mutual

theorem looks_eval (run : Run) (e : Expr) (h : (Node.expr e).Quiet) : Looks (eval run e) := by
  cases e with
  | int | float | string | bool | name =>
    rw [eval]
    exact .pure _
  | group inner | single _ inner =>
    rw [eval]
    exact looks_settled _ (looks_eval run inner h.child)
  | unary op operand span =>
    rw [eval]
    have hoperand := looks_settled operand.span (looks_eval run operand h.child)
    exact .bind hoperand fun v => looks_applied _ v span
  | binary layer left op right span =>
    rw [eval]
    have hleft := looks_settled left.span (looks_eval run left h.child)
    have hright := looks_settled right.span (looks_eval run right h.child)
    exact .bind hleft fun _ => .bind hright fun _ => looks_ofExcept _ _
  | element array index span =>
    rw [eval]
    have hindex := looks_settled index.span (looks_eval run index h.child)
    exact .bind (looks_slotOf array hindex _ _) fun _ => .gets _
  | charOf inner span | codeOf inner span | length inner span =>
    rw [eval]
    have hinner := looks_settled inner.span (looks_eval run inner h.child)
    exact .bind hinner fun v => looks_applied _ v span
  | call | input | read | readLine | atEnd => exact absurd h.here (by simp [Node.isActive])

theorem looks_evalAll (run : Run) (es : List Expr) (h : ∀ e ∈ es, (Node.expr e).Quiet) :
    Looks (evalAll run es) := by
  cases es with
  | nil =>
    rw [evalAll]
    exact .pure _
  | cons e rest =>
    rw [evalAll]
    have he := looks_settled e.span (looks_eval run e (h e List.mem_cons_self))
    have hrest := looks_evalAll run rest fun e he => h e (List.mem_cons_of_mem _ he)
    exact .bind he fun _ => .bind hrest fun _ => .pure _

end

theorem looks_evalExpr (run : Run) (e : Expr) (h : (Node.expr e).Quiet) : Looks (evalExpr run e) :=
  looks_settled e.span (looks_eval run e h)

theorem looks_printed (c : Context) {es : List Expr} (h : ∀ e ∈ es, (Node.expr e).Quiet) :
    Looks (printed c es) := by
  refine .bind ?_ fun _ => .pure _
  induction es with
  | nil =>
    rw [List.mapM_nil]
    exact .pure _
  | cons e rest ih =>
    rw [List.mapM_cons]
    have he := looks_evalExpr c.run e (h e List.mem_cons_self)
    have hrest := ih fun e he => h e (List.mem_cons_of_mem _ he)
    exact .bind (.bind he fun _ => .gets _) fun _ => .bind hrest fun _ => .pure _

end Looking

section Statements

theorem succeeds_define (name : String) (v : Value) : Succeeds (·.flags) (Eval.define name v) :=
  .modify fun _ => rfl

theorem succeeds_alloc (elements : Array Value) : Succeeds (·.flags) (Eval.alloc elements) :=
  .modifyGet fun _ => rfl

theorem succeeds_setSlot (array slot : Nat) (v : Value) :
    Succeeds (·.flags) (setSlot array slot v) := .modify fun _ => rfl

/-- The size is checked before the array is made. -/
theorem isAtomic_sizedArray (v : Value) (span : Span) :
    IsAtomic (·.flags) (sizedArray v span) := by
  cases v with
  | int n =>
    simp only [sizedArray]
    split
    · exact (looks_describing _ _ _).isAtomic
    · split
      · exact (looks_fault _ _).isAtomic
      · exact (succeeds_alloc _).isAtomic
  | _ => exact (looks_describing _ _ _).isAtomic

theorem isAtomic_print (data : Bytes) (span : Span) :
    IsAtomic (·.flags) (Eval.print data span) := by
  refine Looks.bind_isAtomic .get fun m => ?_
  split
  · refine Succeeds.isAtomic (.modify fun _ => ?_)
    rfl
  · exact (looks_fault _ _).isAtomic

theorem execStmt_of_isElementary (c : Context) {s : Stmt} (hs : s.isElementary) :
    execStmt c s = execSimple c s := by
  cases s with
  | «when» | loop | range => cases hs
  | _ => rfl

theorem isAtomic_execStmt (c : Context) {s : Stmt} (hs : s.isElementary)
    (h : (Node.stmt s).Quiet) : IsAtomic (·.flags) (execStmt c s) := by
  rw [execStmt_of_isElementary c hs]
  have hexpr : ∀ e, Node.expr e ∈ (Node.stmt s).children → Looks (evalExpr c.run e) :=
    fun e he => looks_evalExpr c.run e (h.child he)
  cases s with
  | assign target value span =>
    rw [execSimple]
    have hvalue := hexpr value (by simp)
    exact hvalue.bind_isAtomic fun v => (succeeds_define _ v).isAtomic
  | advance target op span =>
    rw [execSimple]
    exact (looks_resolve target).bind_isAtomic fun v =>
      (looks_applied _ v span).bind_isAtomic fun w => (succeeds_define _ w).isAtomic
  | print arguments newline span =>
    rw [execSimple]
    have harguments : ∀ e ∈ arguments, (Node.expr e).Quiet := fun e he =>
      h.child (by simp [he])
    have htext := looks_printed c harguments
    exact htext.bind_isAtomic fun text => isAtomic_print _ span
  | allocate target size span =>
    rw [execSimple]
    have hsize := hexpr size (by simp)
    exact hsize.bind_isAtomic fun v =>
      (isAtomic_sizedArray v _).bind fun w => succeeds_define _ w
  | collect target elements span =>
    rw [execSimple]
    have helements := looks_evalAll c.run elements fun e he =>
      h.child (by simp [he])
    exact helements.bind_isAtomic fun vs =>
      ((succeeds_alloc _).bind fun w => succeeds_define _ w).isAtomic
  | update array index slot value span =>
    rw [execSimple]
    have helement : (Node.expr (.element array index slot)).Quiet := h.child
    have hindex := looks_evalExpr c.run index helement.child
    have hvalue := hexpr value (by simp)
    exact (looks_slotOf array hindex _ _).bind_isAtomic fun _ =>
      hvalue.bind_isAtomic fun v => (succeeds_setSlot _ _ v).isAtomic
  | split target source separator span =>
    rw [execSimple]
    have hsource := hexpr source (by simp)
    have hseparator := hexpr separator (by simp)
    exact hsource.bind_isAtomic fun v => (looks_textOf _ v _).bind_isAtomic fun text =>
      hseparator.bind_isAtomic fun w => (looks_textOf _ w _).bind_isAtomic fun mark =>
        ((succeeds_alloc _).bind fun w => succeeds_define _ w).isAtomic
  | _ => cases hs

/-- A machine that stands between two trees has nothing to drop. -/
theorem Idle.reset_eq {m : Machine} (h : Idle m) : m.reset = m := by
  have harena : m.arena.reset = m.arena := by
    rw [Arena.reset, ← h.scopes, Arena.depth, Array.take_eq_extract, Array.extract_size]
  rw [reset, harena, ← h.flags, ← h.frames, ← h.scope]

/-- Trees without calls and without expressions that read. The evaluation of such an expression
leaves the whole machine as it was, and so does an elementary statement that fails when the machine
stands between two trees. Neither of them gives up. -/
theorem quiet_all_or_nothing :
    (∀ run e, (Node.expr e).Quiet → ∀ m,
      (∃ v, evalExpr run e m = .ok v m) ∨ ∃ f, evalExpr run e m = .error f m) ∧
    ∀ rounds s span m, s.isElementary → (Node.stmt s).Quiet → Idle m →
      (∃ v m', interpret rounds (.body ⟨[s], span⟩) m = .ok v m') ∨
        ∃ f, interpret rounds (.body ⟨[s], span⟩) m = .error f m := by
  refine ⟨fun run e h => looks_evalExpr run e h, ?_⟩
  intro rounds s span m hs h hidle
  -- a statement that fails ends the body in the machine it found, and that is reset to itself
  have hbody : IsAtomic (·.flags) (execBody (context m.settings rounds) ⟨[s], span⟩) := by
    have hstmt := isAtomic_execStmt (context m.settings rounds) hs h
    have hnext : Succeeds (·.flags) (execAll (context m.settings rounds) []) := by
      rw [execAll]
      exact .pure _
    rw [execBody, execAll]
    refine Looks.bind_isAtomic (.gets _) fun raised => ?_
    cases raised with
    | true => exact (Looks.pure _).isAtomic
    | false => exact hstmt.bind fun _ => hnext
  simp only [interpret, evalNode, Step.bind_apply]
  rcases hbody m with ⟨v, m', hok, hflags⟩ | ⟨f, herror⟩
  · left
    rw [hok]
    simp [conclude, Step.gets, Step.modify, hflags.trans hidle.flags]
  · right
    rw [herror]
    exact ⟨f, congrArg (Outcome.error f) hidle.reset_eq⟩

/-- `a[0] = 1 / (a[0] - a[0])` -/
private def division : Stmt :=
  let first := .element ⟨"a", {}⟩ (.int 0 {}) {}
  let rest := .group (.binary .additive first ⟨.sub, {}⟩ first {}) {}
  .update ⟨"a", {}⟩ (.int 0 {}) {} (.binary .multiplicative (.int 1 {}) ⟨.div, {}⟩ rest {}) {}

/-- A machine on which `a` is bound to an array of one element. -/
private def single : Machine where
  arena := ({} : Arena).define Arena.global "a" (.array 0)
  store := { arrays := #[#[.int 1]] }

theorem quiet_all_or_nothing_division : (Node.stmt division).Quiet ∧ Idle single ∧
    interpret 0 (.body ⟨[division], {}⟩) single = .error ⟨.divisionByZero, {}⟩ single := by
  have hquiet : (Node.stmt division).Quiet := fun m hm => by
    have hall : (Node.stmt division).all (fun n => !n.isActive) 6 := by decide
    simpa using Node.every_of_all hall m hm
  have hidle : Idle single := ⟨rfl, rfl, rfl, rfl⟩
  refine ⟨hquiet, hidle, ?_⟩
  rcases quiet_all_or_nothing.2 0 division {} single rfl hquiet hidle with ⟨v, m', hok⟩ | ⟨f, hf⟩
  · cases hok
  · rw [hf]
    cases hf
    rfl

end Statements

end Machine

end Kotoba
