import Kotoba.Proofs.Machine.Forgetful
import Kotoba.Proofs.Machine.Jump
import Kotoba.Proofs.Machine.Stack

/-! What calls leave to their callers. A body binds names in the scope it runs in and nowhere else,
and the scope of a call is dropped with the call. So a call comes back to the scopes, the active
calls and the pending jump that were there when it was made. -/
namespace Kotoba

/-- What was added on top of an arena is dropped again. -/
theorem Arena.pop_top {a b : Arena} (hlive : 0 < a.depth) (hle : a.depth ≤ b.depth)
    (h : ∀ n : Nat, n < a.depth → b.scope? n = a.scope? n) : b.pop a.top = a := by
  have htop : ¬ a.top ≤ global := by
    unfold depth at hlive
    unfold top global
    omega
  rw [pop, if_neg htop]
  unfold depth at hle
  obtain ⟨scopes⟩ := a
  simp only [mk.injEq, top, Int.toNat_natCast]
  refine Array.ext_getElem? fun n => ?_
  rw [Array.shrink_eq_take, Array.take_eq_extract, Array.getElem?_extract]
  split
  · next hn =>
    rw [Nat.zero_add]
    exact h n (by simpa [depth, hle] using hn)
  · next hn => exact (Array.getElem?_eq_none (by simpa [hle] using hn)).symm

namespace Machine

open Step (Keeps)

/-- What belongs to the active calls: the scopes, the frames, and whether a loop is to end or its
present round is. -/
def stack (m : Machine) : Settings × Arena × Int × Array Frame × Bool × Bool :=
  (m.settings, m.arena, m.scope, m.frames, m.flags.breaking, m.flags.continuing)

/-- What lies around the present scope. -/
def surroundings (m : Machine) : Settings × Nat × Int × Array Frame × (Int → Option Scope) :=
  (m.settings, m.arena.depth, m.scope, m.frames,
    fun id => if id = m.scope then none else m.arena.scope? id)

theorem aside_stack : Aside stack :=
  ⟨by constructor <;> intros <;> rfl, fun _ _ => rfl⟩

theorem aside_surroundings : Aside surroundings :=
  ⟨by constructor <;> intros <;> rfl, fun _ _ => rfl⟩

/-- Whether no return is pending. -/
def Flags.IsOpen (f : Flags) : Prop := f.returning = false ∧ f.returnValue = .nothing

theorem Flags.IsOpen.eq {f : Flags} (h : f.IsOpen) :
    (⟨f.breaking, f.continuing, false, .nothing⟩ : Flags) = f := by
  rw [← h.1, ← h.2]

/-- The second machine has what belongs to the active calls of the first. A return that is pending
may be lost. -/
structure Restores (m m' : Machine) : Prop where
  stack : stack m' = stack m
  flags : m.flags.IsOpen → m'.flags = m.flags

namespace Restores

variable {m m' m'' : Machine}

protected theorem refl (m : Machine) : Restores m m := ⟨rfl, fun _ => rfl⟩

protected theorem trans (h : Restores m m') (h' : Restores m' m'') : Restores m m'' where
  stack := h'.stack.trans h.stack
  flags ho := (h'.flags (h.flags ho ▸ ho)).trans (h.flags ho)

end Restores

theorem surroundings_of_stack {m m' : Machine} (h : stack m' = stack m) :
    surroundings m' = surroundings m := by
  simp only [stack, Prod.mk.injEq] at h
  obtain ⟨hsettings, harena, hscope, hframes, -⟩ := h
  simp only [surroundings, hsettings, harena, hscope, hframes]

theorem scope?_of_surroundings {m m' : Machine} (h : surroundings m' = surroundings m) {id : Int}
    (hid : id ≠ m.scope) : m'.arena.scope? id = m.arena.scope? id := by
  simp only [surroundings, Prod.mk.injEq] at h
  obtain ⟨-, -, hscope, -, hscopes⟩ := h
  have hat := congrFun hscopes id
  rwa [hscope, if_neg hid, if_neg hid] at hat

/-- Names are bound in the present scope. -/
theorem surroundings_define (name : String) (v : Value) :
    Keeps surroundings (Eval.define name v) := by
  refine .modify fun m => ?_
  simp only [surroundings, Arena.depth_define, Prod.mk.injEq, true_and]
  funext id
  split
  · rfl
  · next hid => exact Arena.scope?_define_of_ne hid name v

section Acts

variable {α : Type} {a : Act α} {m m' : Machine} {r : α}

theorem surroundings_act (ha : a.Allowed fun _ => True) (h : a.perform m = .ok r m') :
    surroundings m' = surroundings m := by
  cases a with
  | callable x given span => rw [(Act.callable_ok h).1]
  | signal jump => exact (keeps_signal (fun _ _ => rfl) jump).of_ok h
  | endRound => exact (keeps_endRound fun _ _ => rfl).of_ok h
  | defineFunction => exact absurd ha id
  | _ => exact (aside_surroundings.act _ rfl fun _ => surroundings_define).of_ok h

/-- The acts of which expressions are made bind nothing, and they do not jump. -/
theorem restores_act (ha : a.Allowed fun u => u.isOfExpr) (h : a.perform m = .ok r m') :
    Restores m m' := by
  cases a with
  | callable x given span =>
    rw [(Act.callable_ok h).1]
    exact .refl m
  | signal | endRound | define => exact nomatch ha
  | openFile => exact nomatch ha.2
  | defineFunction => exact absurd ha id
  | _ =>
    exact ⟨(aside_stack.act _ rfl fun hb => Bool.noConfusion hb).of_ok h,
      fun _ => (remote_flags.act _ rfl).of_ok h⟩

end Acts

/-- Successful computations after which a machine relates to the one before in a way from which it
can be told how many scopes are live. -/
def keeping (R : Machine → Machine → Prop) (hrefl : ∀ m, R m m)
    (htrans : ∀ {m m' m''}, R m m' → R m' m'' → R m m'')
    (hdepth : ∀ {m m'}, R m m' → m'.arena.depth = m.arena.depth) : Bridge Eval Eval where
  Rel P x _ := ∀ m a m', 0 < m.arena.depth → x m = .ok a m' → P a ∧ R m m'
  pure ha := fun m a m' _ h => by
    cases h
    exact ⟨ha, hrefl m⟩
  bind hx hf := fun m b m' hlive h => by
    obtain ⟨a, m₁, hxm, hfm⟩ := Step.bind_eq_ok h
    obtain ⟨ha, hp⟩ := hx m a m₁ hlive hxm
    obtain ⟨hb, hp'⟩ := hf a ha m₁ b m' (hdepth hp ▸ hlive) hfm
    exact ⟨hb, htrans hp hp'⟩

theorem arena_of_stack {m m' : Machine} (h : stack m' = stack m) : m'.arena = m.arena := by
  simp only [stack, Prod.mk.injEq] at h
  exact h.2.1

private theorem depth_of_stack {m m' : Machine} (h : stack m' = stack m) :
    m'.arena.depth = m.arena.depth := by
  rw [arena_of_stack h]

private theorem depth_of_surroundings {m m' : Machine} (h : surroundings m' = surroundings m) :
    m'.arena.depth = m.arena.depth := by
  simp only [surroundings, Prod.mk.injEq] at h
  exact h.2.1

private theorem lockstep_keeping {R : Machine → Machine → Prop} {hrefl : ∀ m, R m m}
    {htrans : ∀ {m m' m''}, R m m' → R m' m'' → R m m''}
    {hdepth : ∀ {m m'}, R m m' → m'.arena.depth = m.arena.depth} {ok : Use → Prop} {run : Run}
    (hnames : ∀ x, ok (.mentions x))
    (hact : ∀ {α : Type} (a : Act α) (m m' : Machine) (r : α), a.Allowed ok →
      a.perform m = .ok r m' → R m m')
    (hcall : ∀ f args span m v m', 0 < m.arena.depth → call run f args span m = .ok v m' →
      R m m') :
    Lockstep (keeping R hrefl htrans hdepth) (plainHost run) (plainHost run) (fun _ => True) ok :=
  .of_call (fun _ => trivial) (fun _ => hnames _)
    (fun _ _ => (keeping R hrefl htrans hdepth).pure trivial)
    (fun a ha _ m r m' _ h => ⟨Act.gives_of_ok h, hact a m m' r ha h⟩)
    fun f args span _ _ _ m v m' hlive h => ⟨trivial, hcall f args span m v m' hlive h⟩

section Calls

variable {run : Run} {b m' : Machine} {f : Function} {args : List Value} {span : Span} {v : Value}

/-- A call that succeeds was answered as soon as it was set up, or ran its body in its own scope.
In the end a break or a continuation of the caller is pending again, and a return is not. -/
theorem call_stack (h : call run f args span b = .ok v m') :
    ∃ m₁ m₂, stack m₁ = stack (entered b ⟨f.name, span⟩ (bound (f.params.zip args) [])) ∧
      (m₂ = m₁ ∨ run f.body { m₁ with
        scope := b.arena.top
        flags := { m₁.flags with breaking := false, continuing := false } } = .ok () m₂) ∧
      stack m' = stack (left b m₂) ∧ (b.flags.IsOpen → m'.flags = b.flags) := by
  obtain ⟨scope, e, henter, h⟩ := Step.bind_eq_ok h
  rw [enter_apply] at henter
  cases henter
  obtain ⟨_, e', hbind, h⟩ := Step.bind_eq_ok h
  obtain ⟨-, rfl⟩ := bindParams_ok hbind
  obtain ⟨key, e₁, hkey, h⟩ := Step.bind_eq_ok h
  cases hkey
  obtain ⟨depth, e₂, hdepth, h⟩ := Step.bind_eq_ok h
  cases hdepth
  obtain ⟨found, e₃, hfound, h⟩ := Step.bind_eq_ok h
  have hkeeps : Keeps stack (recalled? ((entered b ⟨f.name, span⟩
      (bound (f.params.zip args) [])).arena.digest b.store b.arena.top)) :=
    keeps_recalled (fun _ _ _ _ => rfl) _
  have he₃ := hkeeps.of_ok hfound
  have hflags₃ : e₃.flags = (entered b ⟨f.name, span⟩ (bound (f.params.zip args) [])).flags :=
    (keeps_recalled (fun _ _ _ _ => rfl) _).of_ok hfound
  cases found with
  | some w =>
    obtain ⟨_, m₁, hremark, h⟩ := Step.bind_eq_ok h
    have hm₁ := ((aside_stack.remark _).of_ok hremark).trans he₃
    have hflags₁ := ((remote_flags.remark _).of_ok hremark).trans hflags₃
    cases h
    refine ⟨m₁, m₁, hm₁, .inl rfl, ?_, fun _ => hflags₁⟩
    simp only [stack, Prod.mk.injEq, entered] at hm₁
    simp [stack, left, hm₁]
  | none =>
    obtain ⟨_, m₁, htrace, h⟩ := Step.bind_eq_ok h
    have hm₁ := ((aside_stack.trace _).of_ok htrace).trans he₃
    have hflags₁ := ((remote_flags.trace _).of_ok htrace).trans hflags₃
    obtain ⟨w, m₃, hin, h⟩ := Step.bind_eq_ok h
    obtain ⟨caller, m₄, hcaller, hin⟩ := Step.bind_eq_ok hin
    cases hcaller
    obtain ⟨breaking, m₄, hbreaking, hin⟩ := Step.bind_eq_ok hin
    cases hbreaking
    obtain ⟨continuing, m₄, hcontinuing, hin⟩ := Step.bind_eq_ok hin
    cases hcontinuing
    obtain ⟨_, m₄, hswap, hin⟩ := Step.bind_eq_ok hin
    cases hswap
    obtain ⟨_, m₂, hrun, hin⟩ := Step.bind_eq_ok hin
    cases hin
    cases h
    refine ⟨m₁, m₂, hm₁, .inr hrun, ?_, fun ho => ?_⟩
    · simp only [stack, Prod.mk.injEq, entered] at hm₁
      simp [stack, left, hm₁]
    · show (⟨m₁.flags.breaking, m₁.flags.continuing, false, .nothing⟩ : Flags) = b.flags
      rw [hflags₁]
      exact ho.eq

/-- A call gives back what belongs to its caller. -/
theorem restores_call
    (hrun : ∀ body m m', 0 < m.arena.depth → run body m = .ok () m' →
      surroundings m' = surroundings m)
    (hlive : 0 < b.arena.depth) (h : call run f args span b = .ok v m') : Restores b m' := by
  obtain ⟨m₁, m₂, hm₁, hbody, hm', hflags⟩ := call_stack h
  simp only [stack, entered, Prod.mk.injEq] at hm₁
  obtain ⟨hsettings, harena, -, hframes, -⟩ := hm₁
  have hdepth : m₁.arena.depth = b.arena.depth + 1 := by
    rw [harena]
    simp [Arena.above, Arena.depth]
  have hlower : ∀ n : Nat, n < b.arena.depth → m₁.arena.scope? n = b.arena.scope? n := by
    intro n hn
    rw [harena]
    exact Array.getElem?_push_lt hn |>.trans (Array.getElem?_eq_getElem hn).symm
  -- the body, if it ran, bound names above the scopes of the caller only
  have hafter : m₂.settings = m₁.settings ∧ m₂.frames = m₁.frames ∧
      m₂.arena.depth = m₁.arena.depth ∧
      ∀ n : Nat, n < b.arena.depth → m₂.arena.scope? n = m₁.arena.scope? n := by
    obtain rfl | hran := hbody
    · exact ⟨rfl, rfl, rfl, fun _ _ => rfl⟩
    · have hkept := hrun _ _ _ (by rw [hdepth]; exact Nat.succ_pos _) hran
      refine ⟨congrArg (·.1) hkept, congrArg (·.2.2.2.1) hkept, congrArg (·.2.1) hkept, ?_⟩
      intro n hn
      refine scope?_of_surroundings hkept ?_
      unfold Arena.depth at hn
      simp only [Arena.top]
      omega
  obtain ⟨hsettings', hframes', hdepth', hlower'⟩ := hafter
  have hpop : m₂.arena.pop b.arena.top = b.arena :=
    Arena.pop_top hlive (by omega) fun n hn => (hlower' n hn).trans (hlower n hn)
  refine ⟨?_, hflags⟩
  rw [hm']
  simp [stack, left, hpop, hsettings', hsettings, hframes', hframes]

end Calls

section Bodies

variable {run : Run}

private theorem lockstep_surroundings
    (hrun : ∀ body m m', 0 < m.arena.depth → run body m = .ok () m' →
      surroundings m' = surroundings m) :
    Lockstep (keeping (fun m m' => surroundings m' = surroundings m) (fun _ => rfl)
      (fun h h' => h'.trans h) depth_of_surroundings) (plainHost run) (plainHost run)
      (fun _ => True) fun _ => True :=
  lockstep_keeping (fun _ => trivial) (fun _ _ _ _ ha h => surroundings_act ha h)
    fun _ _ _ _ _ _ hlive h => surroundings_of_stack (restores_call hrun hlive h).stack

/-- A body that is run changes no scope but the one it runs in. -/
theorem surroundings_runBody (rounds depth : Nat) (body : Option Body) (m m' : Machine)
    (hlive : 0 < m.arena.depth) (h : runBody rounds depth body m = .ok () m') :
    surroundings m' = surroundings m := by
  induction depth generalizing body m m' with
  | zero => cases h
  | succ depth ih =>
    cases body with
    | none =>
      cases h
      rfl
    | some body =>
      rw [runBody, ← body_plainHost] at h
      exact ((lockstep_surroundings ih).body rounds body (fun _ _ => trivial) m () m' hlive h).2

private theorem lockstep_restores (rounds depth : Nat) :
    Lockstep (keeping Restores .refl .trans fun h => depth_of_stack h.stack)
      (plainHost (runBody rounds depth)) (plainHost (runBody rounds depth)) (fun _ => True)
      fun u => u.isOfExpr :=
  lockstep_keeping (fun _ => rfl) (fun _ _ _ _ ha h => restores_act ha h)
    fun _ _ _ _ _ _ hlive h => restores_call (surroundings_runBody rounds depth) hlive h

theorem restores_evalAll (rounds depth : Nat) (es : List Expr) (m m' : Machine) (vs : List Value)
    (hlive : 0 < m.arena.depth) (h : evalAll (runBody rounds depth) es m = .ok vs m') :
    Restores m m' := by
  rw [← exprs_plainHost] at h
  exact ((lockstep_restores rounds depth).coupled.exprs es (fun e _ =>
    Node.within_of_uses e.isOfExpr_of_mem) m vs m' hlive h).2

end Bodies

/-- No jump is pending at any moment of a session. -/
theorem jumpless_history (settings : Settings) (disk : Disk) (input : Console.Input)
    (output : Console.Output) (rounds : Nat) (r : Session.Reading) (entries : List Bytes) :
    Jumpless (Session.history rounds r entries { settings, disk, input, output }) := by
  intro moment hm
  obtain ⟨entry, m, ⟨hidle, -⟩, hm⟩ := Session.exists_record_of_mem_history
    (Session.enter_keeps_idle settings rounds r) ⟨⟨rfl, rfl, rfl, rfl⟩, rfl⟩ hm
  unfold Session.record at hm
  split at hm
  · next node s _ => exact jumpless_record rounds node (m := Session.noteParse r s m) hidle.flags _ hm
  · cases hm

/-- A call that succeeds is made when its arguments have been evaluated, which leaves the scopes,
the active calls and the pending jump as they are. So does the call: what it changes is the store,
the disk, the console, the log and what is remembered. Whatever body a call runs changes no scope
but the one the body runs in. Only a return that is pending could get lost, and none is at any moment
of a session. -/
theorem call_leaves_caller (rounds depth : Nat) (callee : Ident) (arguments : List Expr)
    (span : Span) (m m' : Machine) (v : Value) (hlive : 0 < m.arena.depth)
    (h : eval (runBody rounds depth) (.call callee arguments span) m = .ok v m') :
    (∃ f args m₁, callable callee arguments.length span m = .ok f m ∧
      evalAll (runBody rounds depth) arguments m = .ok args m₁ ∧
      call (runBody rounds depth) f args span m₁ = .ok v m' ∧
      Restores m m₁ ∧ Restores m₁ m' ∧
      m' = { m₁ with
        flags := m'.flags, memory := m'.memory, hits := m'.hits, misses := m'.misses
        store := m'.store, disk := m'.disk, input := m'.input, output := m'.output
        log := m'.log }) ∧
    (∀ body inner inner', 0 < inner.arena.depth →
      runBody rounds depth body inner = .ok () inner' →
      inner'.arena.depth = inner.arena.depth ∧ inner'.scope = inner.scope ∧
        inner'.frames = inner.frames ∧
        ∀ id, id ≠ inner.scope → inner'.arena.scope? id = inner.arena.scope? id) ∧
    ∀ settings disk input output (reading : Session.Reading) entries,
      ∀ moment ∈ Session.history rounds reading entries { settings, disk, input, output },
        moment.machine.flags.IsOpen := by
  refine ⟨?_, ?_, ?_⟩
  · rw [eval] at h
    obtain ⟨f, m₀, hf, h⟩ := Step.bind_eq_ok h
    obtain ⟨args, m₁, hargs, hcall⟩ := Step.bind_eq_ok h
    obtain ⟨rfl, -⟩ := Act.callable_ok hf
    have hm₁ := restores_evalAll rounds depth arguments m₀ m₁ args hlive hargs
    have hlive₁ : 0 < m₁.arena.depth := depth_of_stack hm₁.stack ▸ hlive
    have hm' := restores_call (surroundings_runBody rounds depth) hlive₁ hcall
    refine ⟨f, args, m₁, hf, hargs, hcall, hm₁, hm', ?_⟩
    have hstack := hm'.stack
    cases m'
    simp only [stack, Prod.mk.injEq] at hstack
    simp [hstack]
  · intro body inner inner' hinner hran
    have hkept := surroundings_runBody rounds depth body inner inner' hinner hran
    exact ⟨depth_of_surroundings hkept, congrArg (·.2.2.1) hkept,
      congrArg (·.2.2.2.1) hkept, fun _ hid => scope?_of_surroundings hkept hid⟩
  · intro settings disk input output reading entries moment hm
    rw [jumpless_history settings disk input output rounds reading entries moment hm]
    exact ⟨rfl, rfl⟩

/-- A session in which a function assigns to a name that has a global meaning. -/
private def shadowing : Machine :=
  Session.after 1 ⟨{}, false⟩ ["g = 1", "kawaii f(x) => { g = x; g++; modoru g; }"] {}

/-- Whether an evaluation ended with an integer. -/
def endsWith (n : Int64) : Outcome Machine Failure Value → Bool
  | .ok (.int k) _ => k == n
  | _ => false

theorem exists_of_endsWith {n : Int64} {result : Outcome Machine Failure Value}
    (h : endsWith n result) : ∃ m, result = .ok (.int n) m := by
  unfold endsWith at h
  split at h
  · next k m =>
    rw [eq_of_beq h]
    exact ⟨m, rfl⟩
  · cases h

/-- A function that assigns to a global name and increments it leaves the global scope as it
was. -/
theorem call_leaves_caller_global :
    0 < shadowing.arena.depth ∧ ∃ m',
      eval (runBody 1 2) (.call ⟨"f", {}⟩ [.int 5 {}] {}) shadowing = .ok (.int 6) m' ∧
      m'.arena = shadowing.arena := by
  have hlive : 0 < shadowing.arena.depth := by decide +kernel
  obtain ⟨m', hm'⟩ := exists_of_endsWith (show endsWith 6
    (eval (runBody 1 2) (.call ⟨"f", {}⟩ [.int 5 {}] {}) shadowing) by decide +kernel)
  obtain ⟨⟨f, args, m₁, -, -, -, hm₁, hm, -⟩, -, -⟩ :=
    call_leaves_caller 1 2 ⟨"f", {}⟩ [.int 5 {}] {} shadowing m' _ hlive hm'
  exact ⟨hlive, m', hm', arena_of_stack (hm₁.trans hm).stack⟩

end Machine

end Kotoba
