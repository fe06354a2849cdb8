import Kotoba.Proofs.Machine.Act
import Kotoba.Proofs.Machine.Counter

/-! In the plain medium the walk over a tree is its evaluation. -/
namespace Kotoba.Machine

/-- The plain walk in which called bodies are run by `run`. -/
def plainHost (run : Run) : Host Eval := { plain with call := call run }

section Expressions

variable (run : Run)

@[simp] theorem watched_plainHost (e : Expr) (x : Eval Value) : (plainHost run).watched e x = x := by
  simp only [Host.watched, plainHost, plain, pure_bind, bind_pure]

@[simp] theorem settled_plainHost (e : Expr) (x : Eval Value) :
    (plainHost run).settled e x = settled e.span x := by
  simp only [Host.settled, settled]
  congr 1
  funext v
  cases v <;> simp only [Host.settle, plainHost, plain, pure_bind, bind_pure] <;> rfl

private theorem slotOf_eq (array : Ident) (index : Eval Value) (indexSpan span : Span) :
    slotOf array index indexSpan span = (do
      let a ← Act.arrayStep array
      let i ← index
      let slot ← Act.slotStep a i array indexSpan span
      pure (a, slot)) := by
  simp only [slotOf, Act.arrayStep, bind_assoc]
  congr 1
  funext v
  cases v with
  | array a =>
    simp only [pure_bind]
    congr 1
    funext i
    cases i with
    | int n =>
      simp only [Act.slotStep, bind_assoc]
      congr 1
      funext size
      split <;> rfl
    | _ => rfl
  | _ => rfl

mutual

theorem eval_plainHost (e : Expr) : (plainHost run).eval e = eval run e := by
  cases e with
  | int n span => rw [Host.eval, eval]; rw [watched_plainHost]
  | float x span => rw [Host.eval, eval]; rw [watched_plainHost]
  | string text span => rw [Host.eval, eval]; rw [watched_plainHost]
  | bool b span => rw [Host.eval, eval]; rw [watched_plainHost]
  | name ident => rw [Host.eval, eval]; rw [watched_plainHost]
  | group inner span =>
    rw [Host.eval, eval]
    simp only [watched_plainHost, settled_plainHost, eval_plainHost inner]
  | single layer inner span =>
    rw [Host.eval, eval]
    simp only [watched_plainHost, settled_plainHost, eval_plainHost inner]
  | unary op operand span =>
    rw [Host.eval, eval]
    simp only [watched_plainHost, settled_plainHost, eval_plainHost operand]
    rfl
  | binary layer left op right span =>
    rw [Host.eval, eval]
    simp only [watched_plainHost, settled_plainHost, eval_plainHost left, eval_plainHost right]
    rfl
  | call callee arguments span =>
    rw [Host.eval, eval]
    simp only [watched_plainHost, exprs_plainHost arguments]
    rfl
  | input prompt span =>
    cases prompt <;> rw [Host.eval, eval, watched_plainHost] <;> rfl
  | element array index span =>
    rw [Host.eval, eval, slotOf_eq]
    simp only [watched_plainHost, settled_plainHost, bind_assoc, pure_bind, eval_plainHost index]
    rfl
  | charOf code span =>
    rw [Host.eval, eval]
    simp only [watched_plainHost, settled_plainHost, eval_plainHost code]
    rfl
  | codeOf char span =>
    rw [Host.eval, eval]
    simp only [watched_plainHost, settled_plainHost, eval_plainHost char]
    rfl
  | length value span =>
    rw [Host.eval, eval]
    simp only [watched_plainHost, settled_plainHost, eval_plainHost value]
    rfl
  | read file count span =>
    rw [Host.eval, eval]
    cases count with
    | none => simp only [watched_plainHost]; rfl
    | some count => simp only [watched_plainHost, settled_plainHost, eval_plainHost count]; rfl
  | readLine file span =>
    rw [Host.eval, eval]
    simp only [watched_plainHost]
    rfl
  | atEnd file span =>
    rw [Host.eval, eval]
    simp only [watched_plainHost]
    rfl

theorem exprs_plainHost (es : List Expr) : (plainHost run).exprs es = evalAll run es := by
  cases es with
  | nil => rw [Host.exprs, evalAll]
  | cons e rest => rw [Host.exprs, evalAll, settled_plainHost, eval_plainHost e, exprs_plainHost rest]

end

theorem expr_plainHost (e : Expr) : (plainHost run).expr e = evalExpr run e := by
  rw [Host.expr, settled_plainHost, eval_plainHost, evalExpr]

theorem loop_plainHost (condition : Eval Bool) (body : Eval Unit) (rounds : Nat) :
    (plainHost run).loop condition body rounds = whileLoop condition body rounds := by
  induction rounds with
  | zero => rfl
  | succ rounds ih => rw [Host.loop, whileLoop, ih]; rfl

/-- A loop whose rounds are counted beforehand is one in which the counter is compared. -/
theorem range_plainHost (counter : String) (body : Eval Unit) {step last n : Int64} {more : Nat}
    (h : Ahead step last more n) : (plainHost run).range counter step body more n =
      rangeLoop counter step last body (more + 1) n := by
  have hlast := h.eq_last_iff
  induction more generalizing n with
  | zero =>
    rw [Host.range, rangeLoop, beq_iff_eq.mpr (hlast.mpr rfl)]
    simp only [Bool.or_true, if_true]
    rfl
  | succ more ih =>
    have hne : (n == last) = false := by
      rw [beq_eq_false_iff_ne]
      exact fun heq => absurd (hlast.mp heq) (Nat.succ_ne_zero more)
    rw [Host.range, rangeLoop, hne, ih h.next h.next.eq_last_iff]
    simp only [Bool.or_false]
    rfl

theorem fullRange_plainHost (counter : String) (body : Eval Unit) (first last : Int64) :
    (plainHost run).range counter (if last < first then -1 else 1) body
      (last.toInt - first.toInt).natAbs first = fullRange counter first last body :=
  range_plainHost run counter body (ahead_first first last)

end Expressions

section Statements

variable (c : Context)

theorem holds_plainHost (e : Expr) : (plainHost c.run).holds e = holds c e := by
  simp only [Host.holds, holds, expr_plainHost]
  rfl

theorem texts_plainHost (es : List Expr) : (plainHost c.run).texts es =
    es.mapM fun e => (do
      let v ← evalExpr c.run e
      Step.gets fun m => m.store.format v) := by
  induction es with
  | nil => rfl
  | cons e rest ih =>
    rw [Host.texts, List.mapM_cons, ih, expr_plainHost]
    simp only [bind_assoc]
    rfl

theorem simple_plainHost (s : Stmt) : (plainHost c.run).simple s = execSimple c s := by
  cases s with
  | giveBack value span =>
    cases value <;> simp only [Host.simple, execSimple, expr_plainHost] <;> rfl
  | assign target value span => simp only [Host.simple, execSimple, expr_plainHost]; rfl
  | print arguments newline span =>
    simp only [Host.simple, execSimple, Host.printed, printed, texts_plainHost]
    rfl
  | openFile target path mode span => simp only [Host.simple, execSimple, expr_plainHost]; rfl
  | write file value newline span => simp only [Host.simple, execSimple, expr_plainHost]; rfl
  | allocate target size span => simp only [Host.simple, execSimple, expr_plainHost]; rfl
  | collect target elements span => simp only [Host.simple, execSimple, exprs_plainHost]; rfl
  | update array index slot value span =>
    simp only [Host.simple, execSimple, expr_plainHost, slotOf_eq, bind_assoc, pure_bind]
    rfl
  | split target source separator span => simp only [Host.simple, execSimple, expr_plainHost]; rfl
  | expr value => simp only [Host.simple, execSimple, eval_plainHost]; rfl
  | leave | proceed | advance | closeFile | «when» | loop | range => rfl

mutual

theorem stmt_plainHost (s : Stmt) : (plainHost c.run).stmt c.rounds s = execStmt c s := by
  cases s with
  | «when» condition body others otherwise span =>
    cases body <;> cases otherwise <;>
      simp only [Host.stmt, execStmt, holds_plainHost, body_plainHost, others_plainHost others,
        otherwise_plainHost] <;> rfl
  | loop condition body span =>
    cases body <;>
      simp only [Host.stmt, execStmt, holds_plainHost, loop_plainHost, body_plainHost] <;> rfl
  | range counter first last body span =>
    cases body <;>
      simp only [Host.stmt, execStmt, expr_plainHost, fullRange_plainHost, body_plainHost] <;> rfl
  | giveBack | leave | proceed | assign | advance | print | openFile | closeFile | write | allocate
  | collect | update | split | expr =>
    simp only [Host.stmt, execStmt, simple_plainHost]
    rfl

theorem stmts_plainHost (ss : List Stmt) :
    (plainHost c.run).stmts c.rounds ss = execAll c ss := by
  cases ss with
  | nil => rw [Host.stmts, execAll]
  | cons s rest => rw [Host.stmts, execAll, stmt_plainHost s, stmts_plainHost rest]; rfl

theorem body_plainHost (b : Body) : (plainHost c.run).body c.rounds b = execBody c b := by
  cases b with
  | mk statements span => rw [Host.body, execBody, stmts_plainHost statements]

theorem others_plainHost (branches : List OrWhen) (otherwise : Eval Unit) :
    (plainHost c.run).others c.rounds branches otherwise = execOthers c branches otherwise := by
  cases branches with
  | nil => rw [Host.others, execOthers]
  | cons branch rest =>
    cases branch with
    | mk condition body span =>
      cases body <;>
        simp only [Host.others, execOthers, holds_plainHost, others_plainHost rest, body_plainHost]

theorem otherwise_plainHost (branch : Otherwise) :
    (plainHost c.run).otherwise c.rounds branch = execOtherwise c branch := by
  cases branch with
  | mk body span => cases body <;> simp only [Host.otherwise, execOtherwise, body_plainHost]

end

theorem node_plainHost (node : Node) : (plainHost c.run).node c.rounds node = evalNode c node := by
  cases node with
  | program p =>
    obtain ⟨functions, body, span⟩ := p
    cases body <;> simp only [Host.node, evalNode, Host.body?, body_plainHost] <;> rfl
  | body b => simp only [Host.node, evalNode, body_plainHost]
  | stmt s => simp only [Host.node, evalNode, stmt_plainHost]
  | expr e => simp only [Host.node, evalNode, eval_plainHost]
  | function | orWhen | otherwise | operator => rfl

end Statements

theorem host_plain (rounds depth : Nat) :
    plain.host rounds depth = plainHost (runBody rounds depth) := by
  induction depth with
  | zero => rfl
  | succ depth ih =>
    have hb : (plain.host rounds depth).body? rounds = runBody rounds (depth + 1) := by
      funext body
      rw [ih]
      cases body with
      | none => rfl
      | some body => exact body_plainHost ⟨runBody rounds depth, rounds⟩ body
    rw [Medium.host, hb]
    rfl

theorem resolve_cases (x : Ident) (m : Machine) :
    (∃ v, Eval.resolve x m = .ok v m) ∨ ∃ e, Eval.resolve x m = .error e m := by
  simp only [Eval.resolve, Step.bind_apply, Step.get]
  cases m.arena.lookup m.scope x.name with
  | ok v => exact .inl ⟨v, rfl⟩
  | error e => exact .inr ⟨_, rfl⟩

/-- The flags bear on the end only through the value that a return left. -/
theorem conclude_lowered (span : Span) (v : Value) (m : Machine) :
    conclude span v m =
      conclude span (if m.flags.returning then m.flags.returnValue else v) { m with flags := {} } :=
  rfl

/-- In the end the flags are cleared, and nothing else is changed. -/
theorem conclude_cases (span : Span) (v : Value) (m : Machine) :
    (∃ w, conclude span v m = .ok w { m with flags := {} }) ∨
      ∃ e, conclude span v m = .error e { m with flags := {} } := by
  rw [conclude_lowered]
  generalize (if m.flags.returning then m.flags.returnValue else v) = u
  cases u with
  | reference x => exact resolve_cases _ _
  | _ => exact .inl ⟨_, rfl⟩

/-- What interpretation makes of how the evaluation of a tree at `span` ended. -/
def concluded (span : Span) : Outcome Machine Failure Value → Outcome Machine Failure Value
  | .ok v m => conclude span v m
  | .error failure m => .error failure m.reset
  | .exhausted => .exhausted

theorem interpret_eq_walk (rounds : Nat) (node : Node) (m : Machine) :
    interpret rounds node m =
      concluded node.span ((plain.host rounds (m.settings.maxDepth + 1)).node rounds node m) := by
  rw [host_plain]
  have h := node_plainHost (context m.settings rounds) node
  simp only [context] at h
  rw [h, interpret]
  rfl

end Kotoba.Machine
