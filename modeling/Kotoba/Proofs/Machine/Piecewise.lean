import Kotoba.Proofs.Machine.Jump
import Kotoba.Proofs.Machine.Stack

/-! Programs piece by piece. Between two statements at the top level of a program the machine is
as idle as it is between two entries. So nothing depends on whether the functions and statements
of a program are interpreted as one tree or one after the other. -/
namespace Kotoba

/-- What is typed in to run a program piece by piece: its functions, and then its statements. -/
def Program.entries (p : Program) : List Node :=
  p.functions.map .function ++
    (p.body.elim [] Body.statements).map fun s => .body { statements := [s], span := s.span }

namespace Machine

variable {α β : Type} {m : Machine}

/-- Interprets trees one after the other, until one fails. -/
def interpretAll (rounds : Nat) : List Node → Eval Unit
  | [] => pure ()
  | node :: rest => do
    let _ ← interpret rounds node
    interpretAll rounds rest

theorem interpretAll_append (rounds : Nat) (nodes more : List Node) :
    interpretAll rounds (nodes ++ more) = (do
      interpretAll rounds nodes
      interpretAll rounds more) := by
  induction nodes with
  | nil => rfl
  | cons node rest ih => simp only [List.cons_append, interpretAll, ih, bind_assoc]

/-- A computation after whose failure the machine is ready for the next tree. -/
def recovering (x : Eval α) : Eval α := fun m =>
  match x m with
  | .error failure m' => .error failure m'.reset
  | o => o

theorem recovering_ok {x : Eval α} {a : α} {m' : Machine} (h : x m = .ok a m') :
    recovering x m = .ok a m' := by
  simp only [recovering, h]

/-- Unless a jump or a result is left, interpretation is no more than evaluation. -/
theorem interpret_eq_recovering {rounds : Nat} {node : Node} (hjump : ∀ v m',
      evalNode (context m.settings rounds) node m = .ok v m' → v = .nothing ∧ m'.flags = {}) :
    interpret rounds node m = recovering (evalNode (context m.settings rounds) node) m := by
  unfold interpret recovering
  cases heval : evalNode (context m.settings rounds) node m with
  | ok v m' =>
    obtain ⟨rfl, hflags⟩ := hjump v m' heval
    obtain ⟨⟩ := m'
    cases hflags
    rfl
  | error e m' => rfl
  | exhausted => rfl

section Context

variable {c : Context}

/-- Statements are skipped while a jump is pending. -/
theorem execAll_raised (statements : List Stmt) (h : m.flags.isRaised = true) :
    execAll c statements m = .ok () m := by
  cases statements with
  | nil => rfl
  | cons s rest => simp [execAll, Step.gets, h]

theorem execAll_cons (s : Stmt) (rest : List Stmt) (h : m.flags.isRaised = false) :
    execAll c (s :: rest) m = (do execStmt c s; execAll c rest) m := by
  simp [execAll, Step.gets, h]

/-- A body of one statement does what the statement does. -/
theorem evalNode_single (s : Stmt) (span : Span) (h : m.flags.isRaised = false) :
    evalNode c (.body ⟨[s], span⟩) m = (do execStmt c s; pure Value.nothing) m := by
  simp only [evalNode, execBody, Step.bind_apply, execAll_cons s [] h]
  cases execStmt c s m <;> rfl

end Context

/-- Statements that leave no jump pending leave nothing of one. -/
theorem flags_of_execAll {rounds depth : Nat} (statements : List Stmt) {m' : Machine}
    (hm : m.flags = {}) (h : execAll ⟨runBody rounds depth, rounds⟩ statements m = .ok () m')
    (hraised : m'.flags.isRaised = false) : m'.flags = {} := by
  induction statements generalizing m with
  | nil =>
    cases h
    exact hm
  | cons s rest ih =>
    rw [execAll_cons s rest (by rw [hm]; rfl)] at h
    obtain ⟨_, m₁, hs, hrest⟩ := Step.bind_eq_ok h
    cases hr : m₁.flags.isRaised with
    | true =>
      rw [execAll_raised rest hr] at hrest
      cases hrest
      rw [hr] at hraised
      cases hraised
    | false => exact ih (flags_of_execStmt hm hs hr) hrest

/-- Statements that leave no jump pending can be interpreted one by one. A jump that one of them
leaves is pending to the end, as all that follow are skipped. -/
theorem interpretAll_statements (rounds : Nat) (statements : List Stmt) (hm : Idle m)
    (hjump : ∀ m', execAll (context m.settings rounds) statements m = .ok () m' →
      m'.flags.isRaised = false) :
    interpretAll rounds (statements.map fun s => .body { statements := [s], span := s.span }) m =
      recovering (execAll (context m.settings rounds) statements) m := by
  induction statements generalizing m with
  | nil => rfl
  | cons s rest ih =>
    have hcalm : m.flags.isRaised = false := by rw [hm.flags]; rfl
    have hall := execAll_cons (c := context m.settings rounds) s rest hcalm
    have hone := evalNode_single (c := context m.settings rounds) s s.span hcalm
    have hidle := interpret_leavesIdle rounds (.body ⟨[s], s.span⟩) hm
    simp only [hall, Step.bind_apply] at hjump
    simp only [List.map_cons, interpretAll, Step.bind_apply, recovering, hall]
    simp only [interpret, hone, Step.bind_apply] at hidle ⊢
    cases hs : execStmt (context m.settings rounds) s m with
    | ok u m₁ =>
      simp only [hs, Step.pure_apply] at hidle hjump ⊢
      cases hraised : m₁.flags.isRaised with
      | true =>
        have hpending := hjump m₁ (execAll_raised rest hraised)
        rw [hraised] at hpending
        cases hpending
      | false =>
        have hflags := flags_of_execStmt hm.flags hs hraised
        have hend : conclude (Node.body ⟨[s], s.span⟩).span .nothing m₁ = .ok .nothing m₁ := by
          obtain ⟨⟩ := m₁
          cases hflags
          rfl
        rw [hend] at hidle ⊢
        obtain ⟨hidle, hsettings⟩ := hidle
        rw [← hsettings] at hjump ⊢
        exact ih hidle hjump
    | error e m₁ => rfl
    | exhausted => rfl

/-- To bind a function never fails, and leaves no jump. -/
theorem defineFunction_eq_ok (f : FuncDef) (m : Machine) :
    ∃ m', defineFunction f m = .ok () m' ∧ m'.flags = m.flags := by
  refine ⟨_, rfl, ?_⟩
  dsimp only [Eval.trace]
  split <;> rfl

/-- Functions can be bound one by one. -/
theorem interpretAll_functions (rounds : Nat) (functions : List FuncDef) (hm : Idle m) :
    ∃ m', functions.forM defineFunction m = .ok () m' ∧
      interpretAll rounds (functions.map .function) m = .ok () m' ∧
      Idle m' ∧ m'.settings = m.settings := by
  induction functions generalizing m with
  | nil => exact ⟨m, rfl, rfl, hm, rfl⟩
  | cons f rest ih =>
    obtain ⟨m₁, hdefine, hflags⟩ := defineFunction_eq_ok f m
    have heval : evalNode (context m.settings rounds) (.function f) m = .ok .nothing m₁ := by
      simp [evalNode, hdefine]
    have hone : interpret rounds (.function f) m = .ok .nothing m₁ := by
      rw [interpret_eq_recovering, recovering, heval]
      intro v m' h
      rw [heval] at h
      cases h
      exact ⟨rfl, hflags.trans hm.flags⟩
    have hidle := interpret_leavesIdle rounds (.function f) hm
    rw [hone] at hidle
    obtain ⟨hidle, hsettings⟩ := hidle
    obtain ⟨m', hall, hpieces, hidle', hsettings'⟩ := ih hidle
    refine ⟨m', ?_, ?_, hidle', hsettings'.trans hsettings⟩
    · simpa [hdefine] using hall
    · simp [interpretAll, hone, hpieces]

/-- A program binds its functions and executes the statements of its body. -/
theorem evalNode_program {c : Context} (p : Program) {m₁ : Machine}
    (h : p.functions.forM defineFunction m = .ok () m₁) :
    evalNode c (.program p) m =
      (do execAll c (p.body.elim [] Body.statements); pure Value.nothing) m₁ := by
  simp only [evalNode, Step.bind_apply, h]
  rcases p.body with - | ⟨statements, span⟩ <;> rfl

/-- A program that leaves no jump pending leaves nothing of one, and has no value. -/
theorem nothing_of_program {rounds : Nat} {p : Program} (hm : Idle m) {v : Value} {m' : Machine}
    (h : evalNode (context m.settings rounds) (.program p) m = .ok v m')
    (hraised : m'.flags.isRaised = false) : v = .nothing ∧ m'.flags = {} := by
  obtain ⟨m₁, hdefined, -, hidle, -⟩ := interpretAll_functions rounds p.functions hm
  rw [evalNode_program p hdefined] at h
  obtain ⟨_, m₂, hran, hend⟩ := Step.bind_eq_ok h
  cases hend
  exact ⟨rfl, flags_of_execAll _ hidle.flags hran hraised⟩

/-- Running a program and typing it in agree. On an idle machine a program comes to the same end,
with the same machine and the same failure if any, as its functions and then its statements one
by one, unless a statement leaves a jump pending at the top level. -/
theorem interpret_program_piecewise (rounds : Nat) (p : Program) {m : Machine} (hm : Idle m)
    (hjump : ∀ v m', evalNode (context m.settings rounds) (.program p) m = .ok v m' →
      m'.flags.isRaised = false) :
    interpret rounds (.program p) m =
      (do interpretAll rounds p.entries; pure Value.nothing) m := by
  rw [interpret_eq_recovering fun v m' h => nothing_of_program hm h (hjump v m' h)]
  obtain ⟨m₁, hdefined, hpieces, hidle, hsettings⟩ := interpretAll_functions rounds p.functions hm
  have hprogram := evalNode_program (c := context m₁.settings rounds) p hdefined
  rw [← hsettings] at hjump ⊢
  have hstatements := interpretAll_statements rounds (p.body.elim [] Body.statements) hidle
    fun m' h => hjump .nothing m' (by simp [hprogram, h])
  have hsplit : interpretAll rounds p.entries m = recovering
      (execAll (context m₁.settings rounds) (p.body.elim [] Body.statements)) m₁ := by
    rw [Program.entries, interpretAll_append, Step.bind_apply, hpieces]
    exact hstatements
  rw [Step.bind_apply, hsplit]
  simp only [recovering, hprogram, Step.bind_apply]
  cases execAll (context m₁.settings rounds) (p.body.elim [] Body.statements) m₁ <;> rfl

/-- A loop that is left by a jump, and calls of which one is answered from memory. -/
private def sums : Bytes :=
  "kawaii sum(n) => \x7b nani (n < 1) \x7b modoru 0; \x7d modoru n + sum(n - 1); \x7d\n" ++
  "uWu_nyaa() => \x7b for k => (3, 9) \x7b nani (k > 3) \x7b yamete; \x7d yomu(sum(k)); \x7d\n" ++
  "  yomu(sum(4)); \x7d"

/-- Whether a text is a program of so many entries that ends after so many hits and misses, with
no jump pending. -/
private def runsThrough (rounds entries hits misses : Nat) (text : Bytes) : Bool :=
  match Syntax.parseProgram {} text with
  | .ok p _ =>
    match evalNode (context {} rounds) (.program p) {} with
    | .ok _ m => !m.flags.isRaised && p.entries.length == entries && m.hits == hits &&
      m.misses == misses
    | _ => false
  | _ => false

private theorem exists_of_runsThrough {rounds entries hits misses : Nat} {text : Bytes}
    (h : runsThrough rounds entries hits misses text) : ∃ p s v m,
      Syntax.parseProgram {} text = .ok p s ∧ p.entries.length = entries ∧
      evalNode (context {} rounds) (.program p) {} = .ok v m ∧ m.flags.isRaised = false ∧
      m.hits = hits ∧ m.misses = misses := by
  unfold runsThrough at h
  split at h
  · next p s hparse =>
    split at h
    · next v m heval =>
      simp only [Bool.and_eq_true, beq_iff_eq, Bool.not_eq_true'] at h
      obtain ⟨⟨⟨hraised, hentries⟩, hhits⟩, hmisses⟩ := h
      exact ⟨p, s, v, m, hparse, hentries, heval, hraised, hhits, hmisses⟩
    · cases h
  · cases h

/-- One function and two statements make three entries. -/
theorem interpret_program_piecewise_sums : ∃ p s v m,
    Syntax.parseProgram {} sums = .ok p s ∧ p.entries.length = 3 ∧ m.hits = 1 ∧ m.misses = 5 ∧
    interpret 9 (.program p) {} = .ok v m ∧
    (do interpretAll 9 p.entries; pure Value.nothing : Eval Value) {} = .ok v m := by
  have hruns : runsThrough 9 3 1 5 sums := by decide +kernel
  obtain ⟨p, s, v, m, hparse, hentries, heval, hraised, hhits, hmisses⟩ :=
    exists_of_runsThrough hruns
  have hjump : ∀ v' m', evalNode (context {} 9) (.program p) {} = .ok v' m' →
      m'.flags.isRaised = false := by
    rintro v' m' h
    rw [heval] at h
    cases h
    exact hraised
  have hidle : Idle {} := ⟨rfl, rfl, rfl, rfl⟩
  have hpieces := interpret_program_piecewise 9 p hidle hjump
  obtain ⟨rfl, -⟩ := nothing_of_program hidle heval hraised
  have hwhole : interpret 9 (.program p) {} = .ok .nothing m := by
    rw [interpret_eq_recovering fun v' m' h => nothing_of_program hidle h (hjump v' m' h)]
    exact recovering_ok heval
  exact ⟨p, s, _, m, hparse, hentries, hhits, hmisses, hwhole, hpieces ▸ hwhole⟩

end Machine

end Kotoba
