import Kotoba.Proofs.Machine.Keep
import Kotoba.Proofs.Machine.Record
import Kotoba.Proofs.Machine.Stale

/-! Jumps without flags. Every statement ends in a way that says how execution goes on, and nothing
of it is kept in the machine. The evaluation by flags comes to the same. -/
namespace Kotoba.Machine

/-- How a statement ends. -/
inductive Ending where
  | normal
  /-- The innermost loop ends. -/
  | broke
  /-- The present round of the innermost loop ends. -/
  | continued
  /-- The innermost call ends with a value. -/
  | returned (v : Value)

namespace Ending

/-- The flags that tell of an ending. -/
def flags : Ending → Flags
  | normal => {}
  | broke => { breaking := true }
  | continued => { continuing := true }
  | returned v => { returning := true, returnValue := v }

/-- The result of a tree that ended so, when it has `v` without returning. -/
def resultOr (v : Value) : Ending → Value
  | returned r => r
  | _ => v

/-- The value of a call whose body ended so. None at all is null. -/
def value : Ending → Value
  | returned .nothing => .null
  | returned v => v
  | _ => .null

end Ending

namespace Structured

/-- Runs `body` as long as `condition` holds, at most `rounds` times. -/
def loop (condition : Eval Bool) (body : Eval Ending) : (rounds : Nat) → Eval Ending
  | 0 => Step.exhausted
  | rounds + 1 => do
    if (← condition) then
      match (← body) with
      | .normal | .continued => loop condition body rounds
      | .broke => pure .normal
      | .returned v => pure (.returned v)
    else pure .normal

/-- Runs `body` with the counter at `n`, and then `more` times with the counter one step on. -/
def range (counter : String) (step : Int64) (body : Eval Ending) :
    (more : Nat) → Int64 → Eval Ending
  | 0, n => do
    Eval.define counter (.int n)
    match (← body) with
    | .returned v => pure (.returned v)
    | _ => pure .normal
  | more + 1, n => do
    Eval.define counter (.int n)
    match (← body) with
    | .normal | .continued => range counter step body more (n + step)
    | .broke => pure .normal
    | .returned v => pure (.returned v)

mutual

/-- Executes a statement. -/
def stmt (h : Host Eval) (rounds : Nat) : Stmt → Eval Ending
  | .giveBack value _ => do
    match value with
    | some value => return .returned (← h.expr value)
    | none => return .returned .null
  | .leave _ => pure .broke
  | .proceed _ => pure .continued
  | .when condition body others otherwise _ => do
    if (← h.holds condition) then
      match body with
      | some body => Structured.body h rounds body
      | none => pure .normal
    else
      Structured.others h rounds others (match otherwise with
        | some branch => Structured.otherwise h rounds branch
        | none => pure .normal)
  | .loop condition body _ =>
    loop (h.holds condition) (match body with
      | some body => Structured.body h rounds body
      | none => pure .normal) rounds
  | .range counter first last body _ => do
    let start ← rangeBound (← h.expr first) first.span
    let stop ← rangeBound (← h.expr last) last.span
    range counter.name (if stop < start then -1 else 1) (match body with
      | some body => Structured.body h rounds body
      | none => pure .normal) (stop.toInt - start.toInt).natAbs start
  | s => do
    h.simple s
    return .normal
termination_by structural s => s

/-- Executes statements in order up to the first that does not end normally. -/
def stmts (h : Host Eval) (rounds : Nat) : List Stmt → Eval Ending
  | [] => pure .normal
  | s :: rest => do
    match (← stmt h rounds s) with
    | .normal => stmts h rounds rest
    | ending => pure ending
termination_by structural ss => ss

def body (h : Host Eval) (rounds : Nat) : Body → Eval Ending
  | ⟨statements, _⟩ => stmts h rounds statements
termination_by structural b => b

/-- Executes the first branch whose condition holds, or else `otherwise`. -/
def others (h : Host Eval) (rounds : Nat) :
    List OrWhen → (otherwise : Eval Ending) → Eval Ending
  | [], otherwise => otherwise
  | ⟨condition, body, _⟩ :: rest, otherwise => do
    if (← h.holds condition) then
      match body with
      | some body => Structured.body h rounds body
      | none => pure .normal
    else others h rounds rest otherwise
termination_by structural branches => branches

def otherwise (h : Host Eval) (rounds : Nat) : Otherwise → Eval Ending
  | ⟨body, _⟩ =>
    match body with
    | some body => Structured.body h rounds body
    | none => pure .normal
termination_by structural branch => branch

end

/-- Executes a body, if there is one. -/
def body? (h : Host Eval) (rounds : Nat) : Option Body → Eval Ending
  | some body => Structured.body h rounds body
  | none => pure .normal

/-- Runs the body of a function in the scope of a call. A call ends where its body does, with the
value that was returned if there is one. -/
def within (run : Option Body → Eval Ending) (scope : Int) (body : Option Body) : Eval Value := do
  let caller ← Step.gets (·.scope)
  Step.modify fun m => { m with scope }
  let ending ← run body
  Step.modify fun m => { m with scope := caller }
  pure ending.value

/-- The host for so many nested calls. -/
def host (rounds : Nat) : (depth : Nat) → Host Eval
  | 0 => { plain with call := plain.call (within fun _ => Step.exhausted) }
  | depth + 1 => { plain with call := plain.call (within (body? (host rounds depth) rounds)) }

/-- Evaluates a tree: its result, or the value it returned. -/
def node (h : Host Eval) (rounds : Nat) : Node → Eval Value
  | .program p => do
    p.functions.forM h.defineFunction
    return (← body? h rounds p.body).resultOr .nothing
  | .function f => do
    h.defineFunction f
    return .nothing
  | .body b => return (← body h rounds b).resultOr .nothing
  | .stmt s => return (← stmt h rounds s).resultOr .nothing
  | .expr e => h.eval e
  | node => Eval.fault (.notRunnable node.nodeType) node.span

/-- Looks up a name that is left when a tree at `span` ended. -/
def conclude (span : Span) : Value → Eval Value
  | .reference name => Eval.resolve ⟨name, span⟩
  | v => pure v

/-- Interprets a tree. A failure of the evaluation leaves a machine that is ready for the next
tree. -/
def interpret (rounds : Nat) (node : Node) : Eval Value := fun m =>
  match Structured.node (host rounds (m.settings.maxDepth + 1)) rounds node m with
  | .ok v m => conclude node.span v m
  | .error failure m => .error failure m.reset
  | .exhausted => .exhausted

end Structured

/-- What becomes of the way an execution ends when jumps are told by flags. -/
def flagged : Outcome Machine Failure Ending → Outcome Machine Failure Unit
  | .ok ending m => .ok () { m with flags := ending.flags }
  | .error failure m => .error failure m
  | .exhausted => .exhausted

/-- From a machine with no jump pending, a recorded computation ends as `mark` makes of the end of
one without flags. None is pending at any moment of the record, and the computation without flags
leaves none. -/
def Matches {α β : Type} (mark : Outcome Machine Failure α → Outcome Machine Failure β)
    (P : α → Prop) (x : Recorded β) (y : Eval α) : Prop :=
  ∀ m, m.flags = {} → (x m).1 = mark (y m) ∧
    (∀ a m', y m = .ok a m' → P a ∧ m'.flags = {}) ∧
    ∀ moment ∈ (x m).2, moment.machine.flags = {}

/-- Computations that end alike. -/
def Calm {α : Type} (P : α → Prop) (x : Recorded α) (y : Eval α) : Prop := Matches id P x y

/-- Executions of which the first sets the flag for the ending of the second. -/
def Flagged (x : Recorded Unit) (y : Eval Ending) : Prop := Matches flagged (fun _ => True) x y

private theorem matches_bind {α β γ : Type} {P : α → Prop} {Q : β → Prop}
    {mark : Outcome Machine Failure β → Outcome Machine Failure γ}
    (he : ∀ e m, mark (.error e m) = .error e m) (hx : mark .exhausted = .exhausted)
    {x : Recorded α} {y : Eval α} {f : α → Recorded γ} {g : α → Eval β} (hxy : Calm P x y)
    (hf : ∀ a, P a → Matches mark Q (f a) (g a)) : Matches mark Q (x >>= f) (y >>= g) := by
  intro m hm
  obtain ⟨h, hP, hr⟩ := hxy m hm
  simp only [Recorded.bind_apply, Step.bind_apply]
  rcases hxm : x m with ⟨o, past⟩
  rw [hxm] at h hr
  rw [← show o = y m from h] at hP ⊢
  cases o with
  | ok a m' =>
    obtain ⟨ha, hm'⟩ := hP a m' rfl
    obtain ⟨h', hQ, hr'⟩ := hf a ha m' hm'
    refine ⟨h', hQ, fun moment hmem => ?_⟩
    rcases List.mem_append.mp hmem with hmem | hmem
    · exact hr moment hmem
    · exact hr' moment hmem
  | error e m' => exact ⟨(he e m').symm, by rintro _ _ ⟨⟩, hr⟩
  | exhausted => exact ⟨hx.symm, by rintro _ _ ⟨⟩, hr⟩

private theorem calm_pure {α : Type} {P : α → Prop} {a : α} (ha : P a) :
    Calm P (pure a) (pure a) := by
  intro m hm
  refine ⟨rfl, fun b m' h => ?_, by simp⟩
  cases h
  exact ⟨ha, hm⟩

def calm : Bridge Recorded Eval :=
  ⟨Calm, calm_pure, matches_bind (fun _ _ => rfl) rfl⟩

private theorem calm_lift {α : Type} {P : α → Prop} {x : Eval α} (hx : Step.Keeps (·.flags) x)
    (hP : ∀ m a m', x m = .ok a m' → P a) : Calm P (recorded.lift x) x := by
  refine fun m hm => ⟨rfl, fun a m' h => ⟨hP m a m' h, ?_⟩, fun _ h => nomatch h⟩
  rw [hx.of_ok h, hm]

private theorem calm_note (n : Note) : Calm (fun _ => True) (recorded.note n) (plain.note n) := by
  intro m hm
  refine ⟨rfl, fun a m' h => ?_, fun moment h => ?_⟩
  · cases h
    exact ⟨trivial, hm⟩
  · rw [List.mem_singleton.mp h]
    exact hm

/-- A computation in which nothing jumps, and then an execution. -/
private theorem flags_bind {α : Type} {P : α → Prop} {x : Recorded α} {y : Eval α}
    {f : α → Recorded Unit} {g : α → Eval Ending} (hx : Calm P x y)
    (hf : ∀ a, P a → Flagged (f a) (g a)) : Flagged (x >>= f) (y >>= g) :=
  matches_bind (fun _ _ => rfl) rfl hx hf

private theorem flags_normal : Flagged (pure ()) (pure .normal) := by
  intro m hm
  refine ⟨?_, fun e m' h => ?_, by simp⟩
  · simp only [Recorded.pure_apply, Step.pure_apply, flagged, Ending.flags, ← hm]
  · cases h
    exact ⟨trivial, hm⟩

/-- A jump is told by its flag. -/
private theorem flags_signal {jump : Jump} {ending : Ending}
    (hj : ({} : Flags).raise jump = ending.flags) :
    Flagged (recorded.lift (signal jump)) (pure ending) := by
  refine fun m hm => ⟨?_, fun e m' h => ?_, fun _ h => nomatch h⟩
  · show Outcome.ok () { m with flags := m.flags.raise jump } =
      .ok () { m with flags := ending.flags }
    rw [hm, hj]
  · cases h
    exact ⟨trivial, hm⟩

/-- An execution that starts where another ended so. -/
def raised (ending : Ending) (x : Recorded Unit) : Recorded Unit := fun m =>
  x { m with flags := ending.flags }

private theorem raised_normal {x : Recorded Unit} {m : Machine} (hm : m.flags = {}) :
    raised .normal x m = x m := by
  simp only [raised, Ending.flags, ← hm]

/-- An execution, and then what depends on how it ended. -/
private theorem flags_seq {x f : Recorded Unit} {y : Eval Ending} {g : Ending → Eval Ending}
    (hx : Flagged x y) (hf : ∀ ending, Flagged (raised ending f) (g ending)) :
    Flagged (do x; f) (y >>= g) := by
  intro m hm
  obtain ⟨h, hP, hr⟩ := hx m hm
  simp only [Recorded.bind_apply, Step.bind_apply]
  rcases hxm : x m with ⟨o, past⟩
  rw [hxm] at h hr
  obtain rfl : o = flagged (y m) := h
  cases hy : y m with
  | ok e m' =>
    obtain ⟨h', hQ, hr'⟩ := hf e m' (hP e m' hy).2
    refine ⟨h', hQ, fun moment hmem => ?_⟩
    rcases List.mem_append.mp hmem with hmem | hmem
    · exact hr moment hmem
    · exact hr' moment hmem
  | error e m' => exact ⟨rfl, by rintro _ _ ⟨⟩, hr⟩
  | exhausted => exact ⟨rfl, by rintro _ _ ⟨⟩, hr⟩

private theorem flags_congr {x x' : Recorded Unit} {y : Eval Ending} (hx : Flagged x y)
    (h : ∀ m, m.flags = {} → x' m = x m) : Flagged x' y := by
  intro m hm
  rw [h m hm]
  exact hx m hm

/-- A jump that is left to be heeded further out. -/
private theorem flags_pending {x : Recorded Unit} {ending : Ending}
    (h : ∀ m, m.flags = {} →
      raised ending x m = (.ok () { m with flags := ending.flags }, [])) :
    Flagged (raised ending x) (pure ending) := by
  intro m hm
  rw [h m hm]
  refine ⟨rfl, fun e m' h' => ?_, fun _ h' => nomatch h'⟩
  cases h'
  exact ⟨trivial, hm⟩

/-- The end of a round: a break ends the loop and a continuation does not, and neither is pending
any more; a return ends the loop and stays pending. -/
private theorem flags_endRound {next : Recorded Unit} {y : Eval Ending} (hn : Flagged next y)
    (ending : Ending) :
    Flagged (raised ending (do if (← recorded.lift endRound) then pure () else next))
      (match ending with
        | .normal | .continued => y
        | .broke => pure .normal
        | .returned v => pure (.returned v)) := by
  cases ending with
  | normal => exact flags_congr hn fun m hm => by cases m; cases hm; rfl
  | continued => exact flags_congr hn fun m hm => by cases m; cases hm; rfl
  | broke => exact flags_congr flags_normal fun m hm => by cases m; cases hm; rfl
  | returned v => exact flags_pending fun m _ => rfl

/-- After a jump the statements that follow are left out. -/
private theorem stmts_raised (h : Host Recorded) (hl : h.toMedium = recorded) (rounds : Nat)
    (ss : List Stmt) {ending : Ending} (he : ending.flags.isRaised = true) (m : Machine) :
    raised ending (h.stmts rounds ss) m = (.ok () { m with flags := ending.flags }, []) := by
  cases ss with
  | nil => rw [Host.stmts]; rfl
  | cons s rest =>
    rw [Host.stmts]
    simp only [raised, Host.act, hl]
    cases ending with
    | normal => cases he
    | broke | continued | returned v => rfl

/-- A computation in which nothing jumps is an execution that ends normally. -/
private theorem flags_of_calm {P : Unit → Prop} {x : Recorded Unit} {y : Eval Unit}
    (h : Calm P x y) : Flagged x (do y; pure .normal) := by
  intro m hm
  obtain ⟨h, hP, hr⟩ := h m hm
  rw [Step.bind_apply, h]
  cases hy : y m with
  | ok a m' =>
    have hm' := (hP a m' hy).2
    refine ⟨?_, fun e m'' h' => ?_, hr⟩
    · simp only [id_eq, Step.pure_apply, flagged, Ending.flags, ← hm']
    · cases h'
      exact ⟨trivial, hm'⟩
  | error e m' => exact ⟨rfl, by rintro _ _ ⟨⟩, hr⟩
  | exhausted => exact ⟨rfl, by rintro _ _ ⟨⟩, hr⟩

section Statements

variable {h : Host Recorded} {k : Host Eval}

private theorem jumpless (e : Expr) : ∀ u ∈ e.uses, u ≠ .jumps :=
  fun _ hu hj => e.jumps_not_mem_uses (hj ▸ hu)

private theorem calm_expr (L : Lockstep calm h k (fun _ => True) (· ≠ .jumps)) (e : Expr) :
    Calm (fun _ => True) (h.expr e) (k.expr e) := L.expr e (jumpless e)

private theorem calm_holds (L : Lockstep calm h k (fun _ => True) (· ≠ .jumps)) (e : Expr) :
    Calm (fun _ => True) (h.holds e) (k.holds e) :=
  calm.bind (calm_expr L e) fun v _ => L.act (.truthy v) trivial trivial

private theorem flags_loop (hl : h.toMedium = recorded) {c : Recorded Bool} {d : Eval Bool}
    {x : Recorded Unit} {y : Eval Ending} (hc : Calm (fun _ => True) c d) (hx : Flagged x y)
    (rounds : Nat) : Flagged (h.loop c x rounds) (Structured.loop d y rounds) := by
  induction rounds with
  | zero =>
    intro m hm
    rw [Host.loop, Host.act, hl]
    exact ⟨rfl, by rintro _ _ ⟨⟩, by rintro _ ⟨⟩⟩
  | succ rounds ih =>
    rw [Host.loop, Structured.loop]
    refine flags_bind hc fun b _ => ?_
    cases b with
    | false => exact flags_normal
    | true =>
      refine flags_seq hx fun ending => ?_
      rw [Host.act, hl]
      exact flags_endRound ih ending

/-- The last round of a range ends it in any case. -/
private theorem flags_lastRound (ending : Ending) :
    Flagged (raised ending (do let _ ← recorded.lift endRound; pure ()))
      (match ending with
        | .returned v => pure (.returned v)
        | _ => pure .normal) := by
  cases ending with
  | normal => exact flags_congr flags_normal fun m hm => by cases m; cases hm; rfl
  | continued => exact flags_congr flags_normal fun m hm => by cases m; cases hm; rfl
  | broke => exact flags_congr flags_normal fun m hm => by cases m; cases hm; rfl
  | returned v => exact flags_pending fun m _ => rfl

private theorem flags_range (hl : h.toMedium = recorded) (counter : String) (step : Int64)
    {x : Recorded Unit} {y : Eval Ending} (hx : Flagged x y) (more : Nat) (n : Int64) :
    Flagged (h.range counter step x more n) (Structured.range counter step y more n) := by
  have hd : ∀ v, Calm (fun _ => True) (h.act (.define counter v)) (Eval.define counter v) := by
    intro v
    rw [Host.act, hl]
    exact calm_lift (remote_flags.define counter v) fun _ _ _ _ => trivial
  induction more generalizing n with
  | zero =>
    rw [Host.range, Structured.range]
    refine flags_bind (hd _) fun _ _ => flags_seq hx fun ending => ?_
    rw [Host.act, hl]
    exact flags_lastRound ending
  | succ more ih =>
    rw [Host.range, Structured.range]
    refine flags_bind (hd _) fun _ _ => flags_seq hx fun ending => ?_
    rw [Host.act, hl]
    exact flags_endRound (ih _) ending

private theorem calm_rangeBound (hl : h.toMedium = recorded) (v : Value) (span : Span) :
    Calm (fun _ => True) (h.act (.rangeBound v span)) (rangeBound v span) := by
  rw [Host.act, hl]
  exact calm_lift (remote_flags.act (.rangeBound v span) rfl) fun _ _ _ _ => trivial

mutual

private theorem flags_stmt (hl : h.toMedium = recorded)
    (L : Lockstep calm h k (fun _ => True) (· ≠ .jumps)) (rounds : Nat) (s : Stmt) :
    Flagged (h.stmt rounds s) (Structured.stmt k rounds s) := by
  -- the note that is taken first changes nothing
  have hn : ∀ {f : Recorded Unit} {g : Eval Ending}, Flagged f g →
      Flagged (do h.note (.executes s); f) g := fun hf => by
    rw [hl]
    exact flags_bind (y := pure ()) (g := fun _ => _) (calm_note _) fun _ _ => hf
  have hsig : ∀ (jump : Jump) (ending : Ending), ({} : Flags).raise jump = ending.flags →
      Flagged (h.act (.signal jump)) (pure ending) := by
    intro jump ending hj
    rw [Host.act, hl]
    exact flags_signal hj
  rw [Host.stmt.eq_def, Structured.stmt.eq_def]
  refine hn ?_
  cases s with
  | giveBack value span =>
    cases value with
    | none => exact hsig (.returning .null) (.returned .null) rfl
    | some value =>
      exact flags_bind (calm_expr L value) fun v _ => hsig (.returning v) (.returned v) rfl
  | leave span => exact hsig .breaking .broke rfl
  | proceed span => exact hsig .continuing .continued rfl
  | «when» condition body others otherwise span =>
    refine flags_bind (calm_holds L condition) fun b _ => ?_
    cases b with
    | true =>
      cases body with
      | none => exact flags_normal
      | some body => exact flags_body hl L rounds body
    | false =>
      refine flags_others hl L rounds others ?_
      cases otherwise with
      | none => exact flags_normal
      | some branch => exact flags_otherwise hl L rounds branch
  | loop condition body span =>
    refine flags_loop hl (calm_holds L condition) ?_ rounds
    cases body with
    | none => exact flags_normal
    | some body => exact flags_body hl L rounds body
  | range counter first last body span =>
    refine flags_bind (calm_expr L first) fun v _ => flags_bind (calm_rangeBound hl v _)
      fun start _ => flags_bind (calm_expr L last) fun w _ =>
      flags_bind (calm_rangeBound hl w _) fun stop _ => flags_range hl _ _ ?_ _ _
    cases body with
    | none => exact flags_normal
    | some body => exact flags_body hl L rounds body
  | assign | advance | print | openFile | closeFile | write | allocate | collect | update | split
  | expr =>
    exact flags_of_calm (L.simple _ fun _ hu hj => Stmt.jumps_not_mem_uses _ rfl (hj ▸ hu))

private theorem flags_stmts (hl : h.toMedium = recorded)
    (L : Lockstep calm h k (fun _ => True) (· ≠ .jumps)) (rounds : Nat) (ss : List Stmt) :
    Flagged (h.stmts rounds ss) (Structured.stmts k rounds ss) := by
  cases ss with
  | nil => rw [Host.stmts, Structured.stmts]; exact flags_normal
  | cons s rest =>
    rw [Host.stmts, Structured.stmts]
    have hr := flags_stmts hl L rounds rest
    have hseq : Flagged (do h.stmt rounds s; h.stmts rounds rest) (do
        match (← Structured.stmt k rounds s) with
        | .normal => Structured.stmts k rounds rest
        | ending => pure ending) := by
      refine flags_seq (flags_stmt hl L rounds s) fun ending => ?_
      cases ending with
      | normal => exact flags_congr hr fun m hm => raised_normal hm
      | broke => exact flags_pending fun m _ => stmts_raised h hl rounds rest rfl m
      | continued => exact flags_pending fun m _ => stmts_raised h hl rounds rest rfl m
      | returned v => exact flags_pending fun m _ => stmts_raised h hl rounds rest rfl m
    refine flags_congr hseq fun m hm => ?_
    rw [Host.act, hl]
    cases m; cases hm; rfl

private theorem flags_body (hl : h.toMedium = recorded)
    (L : Lockstep calm h k (fun _ => True) (· ≠ .jumps)) (rounds : Nat) (b : Body) :
    Flagged (h.body rounds b) (Structured.body k rounds b) := by
  cases b with
  | mk statements span =>
    rw [Host.body, Structured.body]
    exact flags_stmts hl L rounds statements

private theorem flags_others (hl : h.toMedium = recorded)
    (L : Lockstep calm h k (fun _ => True) (· ≠ .jumps)) (rounds : Nat) (branches : List OrWhen)
    {x : Recorded Unit} {y : Eval Ending} (hx : Flagged x y) :
    Flagged (h.others rounds branches x) (Structured.others k rounds branches y) := by
  cases branches with
  | nil => rw [Host.others, Structured.others]; exact hx
  | cons branch rest =>
    cases branch with
    | mk condition body span =>
      rw [Host.others.eq_def, Structured.others.eq_def]
      refine flags_bind (calm_holds L condition) fun b _ => ?_
      cases b with
      | true =>
        cases body with
        | none => exact flags_normal
        | some body => exact flags_body hl L rounds body
      | false => exact flags_others hl L rounds rest hx

private theorem flags_otherwise (hl : h.toMedium = recorded)
    (L : Lockstep calm h k (fun _ => True) (· ≠ .jumps)) (rounds : Nat) (branch : Otherwise) :
    Flagged (h.otherwise rounds branch) (Structured.otherwise k rounds branch) := by
  cases branch with
  | mk body span =>
    rw [Host.otherwise.eq_def, Structured.otherwise.eq_def]
    cases body with
    | none => exact flags_normal
    | some body => exact flags_body hl L rounds body

end

end Statements

/-- A body that runs in a call of its own leaves no jump pending in the caller. -/
private theorem calm_within {r : Option Body → Recorded Unit} {s : Option Body → Eval Ending}
    (hr : ∀ body, Flagged (r body) (s body)) (scope : Int) (body : Option Body) :
    Calm (fun _ => True) (recorded.within r scope body) (Structured.within s scope body) := by
  intro m hm
  have hin : { m with
      scope := scope
      flags := { m.flags with breaking := false, continuing := false } } =
        { m with scope := scope } := by
    cases m
    cases hm
    rfl
  obtain ⟨h, hP, hmem⟩ := hr body { m with scope := scope } hm
  have hx : recorded.within r scope body m =
      (r body >>= fun _ => recorded.lift (Medium.swapOut ⟨m.scope, m.flags.breaking,
        m.flags.continuing⟩)) { m with scope := scope } := by rw [← hin]; rfl
  have hy : Structured.within s scope body m = (s body >>= fun ending => do
      Step.modify fun m' => { m' with scope := m.scope }
      pure ending.value) { m with scope := scope } := rfl
  rw [hx, hy, Recorded.bind_apply, Step.bind_apply]
  rcases hb : r body { m with scope := scope } with ⟨o, past⟩
  rw [hb] at h hmem
  obtain rfl : o = flagged (s body { m with scope := scope }) := h
  cases hs : s body { m with scope := scope } with
  | ok e m' =>
    have hm' := (hP e m' hs).2
    refine ⟨?_, fun v m'' h => ?_, fun moment h => hmem moment ?_⟩
    · cases m'
      cases hm'
      rw [hm]
      cases e with
      | returned v => cases v <;> rfl
      | _ => rfl
    · cases h
      exact ⟨trivial, hm'⟩
    · simpa [flagged, recorded] using h
  | error e m' => exact ⟨rfl, by rintro _ _ ⟨⟩, hmem⟩
  | exhausted => exact ⟨rfl, by rintro _ _ ⟨⟩, hmem⟩

private theorem calm_call {r : Int → Option Body → Recorded Value}
    {s : Int → Option Body → Eval Value}
    (hw : ∀ scope body, Calm (fun _ => True) (r scope body) (s scope body)) (f : Function)
    (args : List Value) (span : Span) :
    Calm (fun _ => True) (recorded.call r f args span) (plain.call s f args span) := by
  have hflags : Beside (·.flags) :=
    ⟨remote_flags.aloof, remote_flags.arena, remote_flags.frames, fun _ _ _ _ => rfl⟩
  exact calm.call (k := recorded) (l := plain)
    (fun hx => calm_lift (hx.keeps hflags) fun _ _ _ _ => trivial) (fun n _ => calm_note n) hw f
    args span

private theorem calm_act {α : Type} (a : Act α) (ha : a.Allowed (· ≠ .jumps)) :
    Calm (a.Gives fun _ => True) (recorded.lift a.perform) a.perform := by
  refine calm_lift ?_ fun _ _ _ h => Act.gives_of_ok h
  cases a with
  | signal | endRound => exact absurd rfl ha
  | defineFunction => exact absurd ha id
  | callable x given span => exact keeps_callable remote_flags.frames x given span
  | _ => exact remote_flags.act _ rfl

private theorem calm_defineFunction (f : FuncDef) :
    Calm (fun _ => True) (recorded.lift (defineFunction f)) (defineFunction f) :=
  calm_lift (.bind (remote_flags.trace _) fun _ => .bind (remote_flags.define _ _) fun _ =>
    .modify fun _ => rfl) fun _ _ _ _ => trivial

theorem lockstep_calm (rounds depth : Nat) :
    Lockstep calm (recorded.host rounds depth) (Structured.host rounds depth) (fun _ => True)
      (· ≠ .jumps) := by
  induction depth with
  | zero =>
    refine .of_call (fun _ => trivial) (fun _ => nofun) (fun n _ => calm_note n)
      (fun a ha _ => calm_act a ha) fun f args span _ _ _ =>
        calm_call (calm_within fun body m hm => ?_) f args span
    exact ⟨rfl, by rintro _ _ ⟨⟩, by rintro _ ⟨⟩⟩
  | succ depth ih =>
    refine .of_call (fun _ => trivial) (fun _ => nofun) (fun n _ => calm_note n)
      (fun a ha _ => calm_act a ha) fun f args span _ _ _ =>
        calm_call (calm_within fun body => ?_) f args span
    have hl : (recorded.host rounds depth).toMedium = recorded := by cases depth <;> rfl
    cases body with
    | none => exact flags_normal
    | some body => exact flags_body hl ih rounds body

/-- A statement that leaves no jump pending leaves nothing of one. -/
theorem flags_of_execStmt {rounds depth : Nat} {s : Stmt} {m m' : Machine} (hm : m.flags = {})
    (h : execStmt ⟨runBody rounds depth, rounds⟩ s m = .ok () m')
    (hraised : m'.flags.isRaised = false) : m'.flags = {} := by
  have hl : (recorded.host rounds depth).toMedium = recorded := recorded.host_toMedium rounds depth
  obtain ⟨hflagged, -⟩ := flags_stmt hl (lockstep_calm rounds depth) rounds s m hm
  have herased := ((lockstep_erasure rounds depth).stmt rounds s (fun _ _ => trivial) m).1
  rw [host_plain, stmt_plainHost ⟨runBody rounds depth, rounds⟩, h] at herased
  rw [herased] at hflagged
  cases hy : Structured.stmt (Structured.host rounds depth) rounds s m with
  | ok ending m₁ =>
    rw [hy] at hflagged
    cases hflagged
    cases ending with
    | normal => rfl
    | broke | continued | returned => cases hraised
  | error | exhausted =>
    rw [hy] at hflagged
    cases hflagged

/-- What the evaluation without flags is left with when interpretation ends. -/
private def finished (span : Span) : Outcome Machine Failure Value → Outcome Machine Failure Value
  | .ok v m => Structured.conclude span v m
  | .error failure m => .error failure m.reset
  | .exhausted => .exhausted

/-- A recorded walk over a tree comes to what the evaluation without flags comes to. -/
private def Settles (span : Span) (x : Recorded Value) (y : Eval Value) : Prop :=
  ∀ m, m.flags = {} → concluded span (x m).1 = finished span (y m) ∧
    (∀ v m', y m = .ok v m' → m'.flags = {}) ∧
    ∀ moment ∈ (x m).2, moment.machine.flags = {}

private theorem settles_of_calm {P : Value → Prop} {x : Recorded Value} {y : Eval Value}
    (h : Calm P x y) {span : Span} : Settles span x y := by
  intro m hm
  obtain ⟨h, hP, hr⟩ := h m hm
  refine ⟨?_, fun v m' hy => (hP v m' hy).2, hr⟩
  rw [h]
  cases hy : y m with
  | ok v m' =>
    have hm' := (hP v m' hy).2
    cases m'
    cases hm'
    rfl
  | error e m' => rfl
  | exhausted => rfl

private theorem settles_of_flags {x : Recorded Unit} {y : Eval Ending} (h : Flagged x y)
    {span : Span} : Settles span (do x; pure .nothing) (do return (← y).resultOr .nothing) := by
  intro m hm
  obtain ⟨h, hP, hr⟩ := h m hm
  simp only [Recorded.bind_apply, Step.bind_apply]
  rcases hx : x m with ⟨o, past⟩
  rw [hx] at h hr
  obtain rfl : o = flagged (y m) := h
  cases hy : y m with
  | ok e m' =>
    have hm' := (hP e m' hy).2
    refine ⟨?_, fun v m'' h => ?_, by simpa [flagged] using hr⟩
    · cases m'
      cases hm'
      cases e <;> rfl
    · cases h
      exact hm'
  | error e m' => exact ⟨rfl, by rintro _ _ ⟨⟩, hr⟩
  | exhausted => exact ⟨rfl, by rintro _ _ ⟨⟩, hr⟩

private theorem settles_node (rounds depth : Nat) (node : Node) :
    Settles node.span ((recorded.host rounds depth).node rounds node)
      (Structured.node (Structured.host rounds depth) rounds node) := by
  have L := lockstep_calm rounds depth
  have hl : (recorded.host rounds depth).toMedium = recorded := by cases depth <;> rfl
  have hd : ∀ f, Calm (fun _ => True) ((recorded.host rounds depth).defineFunction f)
      ((Structured.host rounds depth).defineFunction f) := fun f => by
    cases depth <;> exact calm.bind (calm_defineFunction f) fun _ _ => calm_note _
  have hrefuse : ∀ node, Calm (fun _ => True) ((recorded.host rounds depth).act (.refuse node))
      (Act.refuse node).perform := fun node => by
    rw [Host.act, hl]
    exact calm_act (.refuse node) trivial
  cases node with
  | program p =>
    obtain ⟨functions, body, span⟩ := p
    have hfs := calm.forM functions fun f _ => hd f
    have hbody : Flagged ((recorded.host rounds depth).body? rounds body)
        (Structured.body? (Structured.host rounds depth) rounds body) := by
      cases body with
      | none => exact flags_normal
      | some body => exact flags_body hl L rounds body
    have h : Settles span _ _ := settles_of_flags (flags_bind hfs fun _ _ => hbody)
    simp only [Recorded.bind_assoc, bind_assoc] at h
    exact h
  | function f =>
    exact settles_of_calm (calm.bind (hd f) fun _ _ => calm.pure (P := fun _ => True) trivial)
  | body b => exact settles_of_flags (flags_body hl L rounds b)
  | stmt s => exact settles_of_flags (flags_stmt hl L rounds s)
  | expr e => exact settles_of_calm (L.eval e (jumpless e))
  | orWhen branch => exact settles_of_calm (hrefuse (.orWhen branch))
  | otherwise branch => exact settles_of_calm (hrefuse (.otherwise branch))
  | operator op => exact settles_of_calm (hrefuse (.operator op))

private theorem keeps_conclude {β : Type} {part : Machine → β} (span : Span) (v : Value) :
    Step.Keeps part (Structured.conclude span v) := by
  cases v with
  | reference name => exact keeps_resolve _
  | _ => exact .pure _

/-- No jump is pending whenever a statement, an expression or a call begins or an expression or a
call ends. -/
theorem jumpless_record (rounds : Nat) (node : Node) {m : Machine} (hm : m.flags = {}) :
    Jumpless (record rounds node m) := (settles_node rounds (m.settings.maxDepth + 1) node m hm).2.2

/-- Interpretation by flags is interpretation with structured jumps, on every tree and every
machine with no jump pending, also on one that still has the value of an earlier return. None is
pending whenever a statement, an expression or a call begins or an expression or a call ends, and
nothing is left of one when interpretation ends. -/
theorem interpret_eq_structured (rounds : Nat) (node : Node) (m : Machine)
    (hm : m.flags.isRaised = false) :
    interpret rounds node m = Structured.interpret rounds node { m with flags := {} } ∧
      concluded node.span (walk rounds node m).1 = interpret rounds node m ∧
      (∀ moment ∈ record rounds node m, moment.machine.flags.isRaised = false) ∧
      (∀ v m', interpret rounds node m = .ok v m' → m'.flags = {}) ∧
      ∀ e m', interpret rounds node m = .error e m' → m'.flags = {} := by
  have htidy := tidy_of_not_isRaised hm
  obtain ⟨h, hok, hjumpless⟩ :=
    settles_node rounds (m.settings.maxDepth + 1) node { m with flags := {} } rfl
  have hs : interpret rounds node m = Structured.interpret rounds node { m with flags := {} } := by
    rw [← interpret_tidy, htidy, ← concluded_walk, Structured.interpret, walk, h]
    rfl
  refine ⟨hs, concluded_walk rounds node m, fun moment hmem => ?_, fun v m' hi => ?_,
    fun e m' hi => ?_⟩
  · -- tidied, the moment is one of the record of the tidied machine
    have hwalk := walk_tidy rounds node m
    rw [htidy] at hwalk
    have hflags := hjumpless moment.tidy <| by
      show moment.tidy ∈ (walk rounds node { m with flags := {} }).2
      rw [hwalk]
      exact List.mem_map_of_mem hmem
    rw [← Flags.isRaised_tidy, show moment.machine.flags.tidy = {} from hflags]
    rfl
  · rw [hs, Structured.interpret] at hi
    split at hi
    · next u n hn => exact ((keeps_conclude _ u).of_ok hi).trans (hok u n hn)
    · cases hi
    · cases hi
  · rw [hs, Structured.interpret] at hi
    split at hi
    · next u n hn => exact ((keeps_conclude _ u).of_error hi).trans (hok u n hn)
    · cases hi; rfl
    · cases hi

/-- A return from within a loop within a loop, where an earlier return has left its value. -/
theorem interpret_eq_structured_nested :
    let inner := Stmt.loop (.bool true {}) (some ⟨[.giveBack (some (.int 7 {})) {}], {}⟩) {}
    let outer := Stmt.loop (.bool true {}) (some ⟨[inner, .leave {}], {}⟩) {}
    let m : Machine := { flags := { returnValue := .int 3 } }
    m.flags.isRaised = false ∧ Structured.interpret 1 (.stmt outer) {} = .ok (.int 7) {} ∧
      interpret 1 (.stmt outer) m = .ok (.int 7) {} :=
  ⟨rfl, rfl, (interpret_eq_structured 1 _ { flags := { returnValue := .int 3 } } rfl).1⟩

end Kotoba.Machine
