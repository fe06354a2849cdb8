import Kotoba.Proofs.Machine.Served

/-! The discipline of calls. Every active call has a frame and a scope, and evaluation goes on in
the scope of the innermost one. Whatever ends the evaluation of an entry, no call is left. -/
namespace Kotoba

namespace Arena

@[simp] theorem depth_define (a : Arena) (id : Int) (name : String) (v : Value) :
    (a.define id name v).depth = a.depth := by
  unfold define insert
  split
  · rfl
  · simp [depth]

theorem depth_push (a : Arena) (name : String) (parent : Int) :
    (a.push name parent).2.depth = a.depth + 1 := by
  simp [push, depth]

theorem depth_pop (a : Arena) {n : Nat} (hn : 0 < n) (h : n ≤ a.depth) :
    (a.pop n).depth = n := by
  have hg : ¬ (n : Int) ≤ global := by
    unfold global
    omega
  rw [pop, if_neg hg]
  unfold depth at h
  simp only [depth, Int.toNat_natCast, Array.shrink_eq_take, Array.take_eq_extract,
    Array.size_extract]
  omega

theorem depth_reset (a : Arena) (h : 0 < a.depth) : a.reset.depth = 1 := by
  unfold depth at h
  simp only [reset, depth, Array.take_eq_extract, Array.size_extract]
  omega

end Arena

namespace Machine

/-- A machine inside of `n` calls, whose innermost scope is the present one. -/
structure AtLevel (settings : Settings) (n : Nat) (m : Machine) : Prop where
  settings_eq : m.settings = settings
  frames : m.frames.size = n
  scopes : m.arena.depth = n + 1
  scope : m.scope = n

/-- A machine that has entered a call but still evaluates in the scope of the caller. -/
structure Entered (settings : Settings) (n : Nat) (m : Machine) : Prop where
  settings_eq : m.settings = settings
  frames : m.frames.size = n + 1
  scopes : m.arena.depth = n + 2
  scope : m.scope = n

/-- What can be reset: there is a global scope. -/
structure Resettable (settings : Settings) (m : Machine) : Prop where
  settings_eq : m.settings = settings
  scopes : 0 < m.arena.depth

theorem AtLevel.resettable {settings : Settings} {n : Nat} {m : Machine}
    (h : AtLevel settings n m) : Resettable settings m :=
  ⟨h.settings_eq, by rw [h.scopes]; omega⟩

theorem Entered.resettable {settings : Settings} {n : Nat} {m : Machine}
    (h : Entered settings n m) : Resettable settings m :=
  ⟨h.settings_eq, by rw [h.scopes]; omega⟩

/-- The scope in which evaluation goes on from a moment. -/
def Moment.scope (moment : Moment) : Int :=
  match moment.note with
  | .calls _ _ scope => scope
  | _ => moment.machine.scope

/-- There are no more frames than may be, one scope for each of them besides the global one, and
the last scope is the one in which evaluation goes on. -/
structure Moment.InOrder (settings : Settings) (moment : Moment) : Prop where
  settings_eq : moment.machine.settings = settings
  frames : moment.machine.frames.size ≤ settings.maxDepth
  scopes : moment.machine.arena.depth = moment.machine.frames.size + 1
  scope : moment.scope + 1 = moment.machine.arena.depth

theorem AtLevel.inOrder {settings : Settings} {n : Nat} {m : Machine} (h : AtLevel settings n m)
    (hn : n ≤ settings.maxDepth) {note : Note} (hs : (⟨note, m⟩ : Moment).scope = m.scope) :
    (⟨note, m⟩ : Moment).InOrder settings where
  settings_eq := h.settings_eq
  frames := by rw [h.frames]; exact hn
  scopes := by rw [h.scopes, h.frames]
  scope := by rw [hs, h.scope, h.scopes]; omega

theorem Entered.inOrder {settings : Settings} {n : Nat} {m : Machine} (h : Entered settings n m)
    (hn : n < settings.maxDepth) (f : Function) (args : List Value) :
    (⟨.calls f args (n + 1 : Nat), m⟩ : Moment).InOrder settings where
  settings_eq := h.settings_eq
  frames := by rw [h.frames]; exact hn
  scopes := by rw [h.scopes, h.frames]
  scope := by
    rw [h.scopes]
    simp only [Moment.scope]
    omega

/-- Everything that happens in a computation is in order. If it succeeds, the machine is as in
`post`, and if it fails, the machine can be reset. -/
def Orderly {α : Type} (settings : Settings) (pre : Machine → Prop) (x : Recorded α)
    (post : α → Machine → Prop) : Prop :=
  ∀ m, pre m → (∀ moment ∈ (x m).2, moment.InOrder settings) ∧
    match (x m).1 with
    | .ok a m' => post a m'
    | .error _ m' => Resettable settings m'
    | .exhausted => True

namespace Orderly

variable {α β : Type} {settings : Settings} {pre : Machine → Prop} {Q : α → Machine → Prop}

theorem pure (a : α) : Orderly settings (Q a) (Pure.pure a) Q := by
  intro m h
  exact ⟨by simp, h⟩

theorem bind {post : β → Machine → Prop} {x : Recorded α} {f : α → Recorded β}
    (hx : Orderly settings pre x Q) (hf : ∀ a, Orderly settings (Q a) (f a) post) :
    Orderly settings pre (x >>= f) post := by
  intro m h
  have hxm := hx m h
  rw [Recorded.bind_apply]
  generalize x m = result at hxm ⊢
  rcases result with ⟨_ | _ | _, record⟩
  case ok a m' =>
    obtain ⟨ha, hp⟩ := hf a m' hxm.2
    exact ⟨List.forall_mem_append.mpr ⟨hxm.1, ha⟩, hp⟩
  case error e m' => exact hxm
  case exhausted => exact hxm

theorem mono {post : α → Machine → Prop} {x : Recorded α} (hx : Orderly settings pre x Q)
    (h : ∀ m a m', (x m).1 = .ok a m' → Q a m' → post a m') : Orderly settings pre x post := by
  intro m hm
  obtain ⟨ho, hp⟩ := hx m hm
  refine ⟨ho, ?_⟩
  cases hr : (x m).1 with
  | ok a m' =>
    rw [hr] at hp
    exact h m a m' hr hp
  | error e m' =>
    rw [hr] at hp
    exact hp
  | exhausted => trivial

theorem note {post : Machine → Prop} {n : Note} (hp : ∀ m, pre m → post m)
    (hn : ∀ m, pre m → (⟨n, m⟩ : Moment).InOrder settings) :
    Orderly settings pre (recorded.note n) fun _ => post := by
  intro m h
  exact ⟨by simpa [recorded] using hn m h, hp m h⟩

theorem modifyGet {f : Machine → α × Machine} (hf : ∀ m, pre m → Q (f m).1 (f m).2) :
    Orderly settings pre (recorded.lift (Step.modifyGet f)) Q := by
  intro m h
  exact ⟨by simp [recorded], hf m h⟩

theorem modify {post : Machine → Prop} {f : Machine → Machine} (hf : ∀ m, pre m → post (f m)) :
    Orderly settings pre (recorded.lift (Step.modify f)) fun _ => post := by
  intro m h
  exact ⟨by simp [recorded], hf m h⟩

theorem exhausted : Orderly settings pre (recorded.lift Step.exhausted) Q := by
  intro m h
  exact ⟨by simp [recorded], trivial⟩

end Orderly

/-- What the discipline of calls is about. -/
def shape (m : Machine) : Settings × Nat × Nat × Int :=
  (m.settings, m.frames.size, m.arena.depth, m.scope)

theorem steady_shape : Steady shape := by
  refine ⟨⟨⟨?_, fun _ _ => rfl⟩, fun m scope name v => by simp [shape]⟩, fun _ _ => rfl,
    fun _ _ _ _ => rfl⟩
  constructor <;> intros <;> rfl

section Level

variable {settings : Settings} {n : Nat}

theorem AtLevel.of_shape {m m' : Machine} (h : AtLevel settings n m) (hs : shape m' = shape m) :
    AtLevel settings n m' := by
  simp only [shape, Prod.mk.injEq] at hs
  obtain ⟨h₁, h₂, h₃, h₄⟩ := hs
  exact ⟨h₁.trans h.settings_eq, h₂.trans h.frames, h₃.trans h.scopes, h₄.trans h.scope⟩

theorem Entered.of_shape {m m' : Machine} (h : Entered settings n m) (hs : shape m' = shape m) :
    Entered settings n m' := by
  simp only [shape, Prod.mk.injEq] at hs
  obtain ⟨h₁, h₂, h₃, h₄⟩ := hs
  exact ⟨h₁.trans h.settings_eq, h₂.trans h.frames, h₃.trans h.scopes, h₄.trans h.scope⟩

/-- A step that keeps the shape of the machine. -/
private theorem orderly_lift {α : Type} {inv : Machine → Prop}
    (hr : ∀ m, inv m → Resettable settings m)
    (hi : ∀ m m', inv m → shape m' = shape m → inv m') {x : Eval α} (hx : Step.Keeps shape x) :
    Orderly settings inv (recorded.lift x) fun _ => inv := by
  intro m h
  refine ⟨by simp [recorded], ?_⟩
  have hm := hx m
  simp only [recorded]
  generalize x m = result at hm ⊢
  cases result with
  | ok a m' => exact hi m m' h hm
  | error e m' => exact hr m' (hi m m' h hm)
  | exhausted => trivial

private theorem orderly_atLevel {α : Type} {x : Eval α} (hx : Step.Keeps shape x) :
    Orderly settings (AtLevel settings n) (recorded.lift x) fun _ => AtLevel settings n :=
  orderly_lift (fun _ h => h.resettable) (fun _ _ h => h.of_shape) hx

private theorem orderly_entered {α : Type} {x : Eval α} (hx : Step.Keeps shape x) :
    Orderly settings (Entered settings n) (recorded.lift x) fun _ => Entered settings n :=
  orderly_lift (fun _ h => h.resettable) (fun _ _ h => h.of_shape) hx

/-- A call has a frame and a scope of its own. -/
private theorem orderly_enter (f : Function) (span : Span) :
    Orderly settings (AtLevel settings n) (recorded.lift (enter f span)) fun scope m =>
      scope = (n + 1 : Nat) ∧ Entered settings n m := by
  refine Orderly.modifyGet fun m h => ⟨?_, h.settings_eq, ?_, ?_, h.scope⟩
  · show (m.arena.depth : Int) = (n + 1 : Nat)
    rw [h.scopes]
  · simp [h.frames]
  · rw [Arena.depth_push, h.scopes]

/-- The frame and the scope of a call go together. -/
private theorem orderly_leave :
    Orderly settings (Entered settings n) (recorded.lift (leave (n + 1 : Nat))) fun _ =>
      AtLevel settings n := by
  refine Orderly.modify fun m h => ⟨h.settings_eq, ?_, ?_, h.scope⟩
  · simp [h.frames]
  · have hd : n + 1 ≤ m.arena.depth := by
      rw [h.scopes]
      omega
    exact Arena.depth_pop m.arena (Nat.succ_pos n) hd

private theorem orderly_within {run : Option Body → Recorded Unit} (body : Option Body)
    (hr : Orderly settings (AtLevel settings (n + 1)) (run body) fun _ =>
      AtLevel settings (n + 1)) :
    Orderly settings (Entered settings n) (recorded.within run (n + 1 : Nat) body) fun _ =>
      Entered settings n := by
  refine Orderly.bind (Q := fun saved m => saved.1 = (n : Int) ∧ AtLevel settings (n + 1) m)
    (Orderly.modifyGet fun m h => ⟨h.scope, h.settings_eq, h.frames, h.scopes, rfl⟩) fun saved => ?_
  intro m h
  refine Orderly.bind hr (fun _ => Orderly.modifyGet fun m' h' => ?_) m h.2
  exact ⟨h'.settings_eq, h'.frames, h'.scopes, h.1⟩

private theorem orderly_call (hn : n < settings.maxDepth) {run : Option Body → Recorded Unit}
    (hr : ∀ body, Orderly settings (AtLevel settings (n + 1)) (run body) fun _ =>
      AtLevel settings (n + 1)) (f : Function) (args : List Value) (span : Span) :
    Orderly settings (AtLevel settings n) (recorded.call (recorded.within run) f args span)
      fun _ => AtLevel settings n := by
  have aside : ∀ note : Note, (∀ m, (⟨note, m⟩ : Moment).scope = m.scope) →
      Orderly settings (AtLevel settings n) (recorded.note note) fun _ => AtLevel settings n :=
    fun note hs => Orderly.note (fun _ h => h) fun m h => h.inOrder (Nat.le_of_lt hn) (hs m)
  refine Orderly.bind (orderly_enter f span) fun scope m h => ?_
  obtain ⟨rfl, h⟩ := h
  refine Orderly.bind (orderly_entered (steady_shape.bindParams _ _ _ _)) (fun _ =>
    Orderly.bind (Q := fun _ => Entered settings n)
      (Orderly.note (fun _ h => h) fun m h => h.inOrder hn f args) fun _ =>
    Orderly.bind (orderly_entered (.gets _)) fun key =>
    Orderly.bind (orderly_entered (.gets _)) fun depth =>
    Orderly.bind (orderly_entered (steady_shape.recalled key)) fun found => ?_) m h
  cases found with
  | some v =>
    exact Orderly.bind (orderly_entered (steady_shape.remark _)) fun _ =>
      Orderly.bind orderly_leave fun _ => Orderly.bind (aside _ fun _ => rfl) fun _ =>
      Orderly.pure (Q := fun _ => AtLevel settings n) v
  | none =>
    exact Orderly.bind (orderly_entered (steady_shape.trace _)) fun _ =>
      Orderly.bind (orderly_within f.body (hr f.body)) fun v => Orderly.bind orderly_leave fun _ =>
      Orderly.bind (orderly_atLevel (steady_shape.remember _ v)) fun _ =>
      Orderly.bind (aside _ fun _ => rfl) fun _ =>
      Orderly.pure (Q := fun _ => AtLevel settings n) v

end Level

/-- Computations inside of `n` calls. -/
def level (settings : Settings) (n : Nat) : Bridge Recorded Recorded where
  Rel P x _ := Orderly settings (AtLevel settings n) x fun a m => P a ∧ AtLevel settings n m
  pure {α P a} ha := fun m h => ⟨by simp, ha, h⟩
  bind {α β P Q x y f g} hx hf := Orderly.bind hx fun a m h => hf a h.1 m h.2

section Walk

variable {settings : Settings} {n : Nat}

private theorem level_of {α : Type} {x : Recorded α}
    (hx : Orderly settings (AtLevel settings n) x fun _ => AtLevel settings n) :
    (level settings n).Rel (fun _ => True) x x :=
  hx.mono fun _ _ _ _ h => ⟨trivial, h⟩

private theorem of_level {α : Type} {P : α → Prop} {x y : Recorded α}
    (hx : (level settings n).Rel P x y) :
    Orderly settings (AtLevel settings n) x fun _ => AtLevel settings n :=
  Orderly.mono hx fun _ _ _ _ h => h.2

/-- A call is refused, or there is room for it. -/
private theorem level_callable (callee : Ident) (given : Nat) (span : Span) :
    (level settings n).Rel
      (fun f => n < settings.maxDepth ∧ (Act.callable callee given span).Gives (fun _ => True) f)
      (recorded.lift (callable callee given span))
      (recorded.lift (callable callee given span)) := by
  intro m h
  refine ⟨by simp [recorded], ?_⟩
  have hk : Step.Keeps (fun m => (m.settings, m.arena.depth)) (callable callee given span) :=
    keeps_callable (fun _ _ => rfl) callee given span
  have hm := hk m
  simp only [recorded]
  cases hc : callable callee given span m with
  | ok f m' =>
    obtain ⟨rfl, -, hroom, hlen⟩ := Act.callable_ok hc
    rw [h.frames, h.settings_eq] at hroom
    exact ⟨⟨hroom, trivial, hlen⟩, h⟩
  | error e m' =>
    rw [hc] at hm
    obtain ⟨hs, hd⟩ := Prod.mk.inj hm
    exact ⟨hs.trans h.settings_eq, by rw [hd, h.scopes]; omega⟩
  | exhausted => trivial

private theorem level_act {α : Type} (a : Act α) :
    (level settings n).Rel (a.Gives fun _ => True) (recorded.lift a.perform)
      (recorded.lift a.perform) := by
  have of_keeps : Step.Keeps shape a.perform → (level settings n).Rel (a.Gives fun _ => True)
      (recorded.lift a.perform) (recorded.lift a.perform) := fun hk =>
    (orderly_atLevel hk).mono fun _ _ _ hm h => ⟨Act.gives_of_ok hm, h⟩
  cases a with
  | callable x given span =>
    exact Orderly.mono (level_callable x given span) fun _ _ _ _ h => ⟨h.1.2, h.2⟩
  | _ => exact of_keeps (steady_shape.act rfl)

private theorem level_note (hn : n ≤ settings.maxDepth) (note : Note)
    (hs : ∀ m, (⟨note, m⟩ : Moment).scope = m.scope) :
    (level settings n).Rel (fun _ => True) (recorded.note note) (recorded.note note) :=
  level_of (Orderly.note (fun _ h => h) fun m h => h.inOrder hn (hs m))

private theorem scope_of_isOnWay {note : Note} (hn : note.isOnWay) (m : Machine) :
    (⟨note, m⟩ : Moment).scope = m.scope := by
  cases note <;> first | rfl | cases hn

/-- Calls go one level up, where there is one. -/
private theorem level_invoke {within : Int → Option Body → Recorded Value}
    (hc : ∀ f args span, n < settings.maxDepth →
      Orderly settings (AtLevel settings n) (recorded.call within f args span) fun _ =>
        AtLevel settings n)
    (callee : Ident) (given : Nat) (span : Span) {P : List Value → Prop}
    {x y : Recorded (List Value)} (hx : (level settings n).Rel P x y) :
    (level settings n).Rel (fun _ => True)
      (do
        let f ← recorded.lift (callable callee given span)
        let args ← x
        recorded.call within f args span)
      (do
        let f ← recorded.lift (callable callee given span)
        let args ← y
        recorded.call within f args span) :=
  (level settings n).bind (level_callable callee given span) fun f hf =>
    (level settings n).bind hx fun args _ => level_of (hc f args span hf.1)

theorem lockstep_level (rounds depth : Nat) {n : Nat} (hn : n ≤ settings.maxDepth) :
    Lockstep (level settings n) (recorded.host rounds depth) (recorded.host rounds depth)
      (fun _ => True) (fun _ => True) := by
  induction depth generalizing n with
  | zero =>
    refine ⟨fun _ => trivial, fun _ => trivial, fun note h => level_note hn note (scope_of_isOnWay h),
      fun a _ _ => level_act a, fun callee given span _ _ _ hx => ?_⟩
    exact level_invoke (fun f args span hroom =>
      orderly_call hroom (fun _ => .exhausted) f args span) callee given span hx
  | succ depth ih =>
    refine ⟨fun _ => trivial, fun _ => trivial, fun note h => level_note hn note (scope_of_isOnWay h),
      fun a _ _ => level_act a, fun callee given span _ _ _ hx => ?_⟩
    exact level_invoke (fun f args span hroom => orderly_call hroom (fun body =>
      of_level ((ih hroom).body? rounds body fun _ _ => trivial)) f args span) callee given span hx

/-- A tree is evaluated in order and without leaving a call behind. -/
theorem walk_orderly (rounds : Nat) (node : Node) :
    Orderly settings (AtLevel settings 0) (walk rounds node) fun _ => AtLevel settings 0 := by
  intro m h
  have hn : 0 ≤ settings.maxDepth := Nat.zero_le _
  refine of_level ((lockstep_level rounds (m.settings.maxDepth + 1) hn).node (fun f => ?_)
    rounds node) m h
  exact (level settings 0).bind (level_of (orderly_atLevel (steady_shape.defineFunction f))) fun _ _ =>
    level_note hn _ fun _ => rfl

end Walk

/-- No call is active, only the global scope is live and is the present one, and no jump is
pending. -/
structure Idle (m : Machine) : Prop where
  frames : m.frames = #[]
  scopes : m.arena.depth = 1
  scope : m.scope = Arena.global
  flags : m.flags = {}

theorem Idle.atLevel {m : Machine} (h : Idle m) : AtLevel m.settings 0 m :=
  ⟨rfl, by rw [h.frames]; rfl, h.scopes, h.scope⟩

theorem AtLevel.idle {settings : Settings} {m : Machine} (h : AtLevel settings 0 m)
    (hf : m.flags = {}) : Idle m :=
  ⟨Array.eq_empty_of_size_eq_zero h.frames, h.scopes, h.scope, hf⟩

theorem Resettable.idle_reset {settings : Settings} {m : Machine} (h : Resettable settings m) :
    Idle m.reset :=
  ⟨rfl, m.arena.depth_reset h.scopes, rfl, rfl⟩

/-- What is left when a tree has been interpreted, however that ended. -/
def Outcome.LeavesIdle (settings : Settings) : Outcome Machine Failure Value → Prop
  | .ok _ m | .error _ m => Idle m ∧ m.settings = settings
  | .exhausted => True

theorem interpret_leavesIdle (rounds : Nat) (node : Node) {m : Machine} (h : Idle m) :
    Outcome.LeavesIdle m.settings (interpret rounds node m) := by
  obtain ⟨-, hp⟩ := walk_orderly rounds node m h.atLevel
  rw [← concluded_walk]
  generalize (walk rounds node m).1 = result at hp ⊢
  cases result with
  | ok v m' =>
    have hlevel : AtLevel m.settings 0 { m' with flags := {} } :=
      ⟨hp.settings_eq, hp.frames, hp.scopes, hp.scope⟩
    -- a name that is left and not found fails without a reset
    obtain ⟨w, hend⟩ | ⟨e, hend⟩ := conclude_cases node.span v m' <;>
      rw [concluded, hend] <;> exact ⟨hlevel.idle rfl, hp.settings_eq⟩
  | error e m' => exact ⟨hp.idle_reset, hp.settings_eq⟩
  | exhausted => trivial

/-- A call is refused because too many are active. -/
def RefusesDepth (m : Machine) (callee : Ident) (given : Nat) (span : Span) : Prop :=
  ∃ failure m', callable callee given span m = .error failure m' ∧
    failure.fault.kind? = some .callDepth

/-- The limit on active calls is looked at before the number of arguments. -/
theorem refusesDepth_iff {m : Machine} {callee : Ident} {f : Function} (given : Nat) (span : Span)
    (hf : m.arena.function m.scope callee.name = .ok f) :
    m.RefusesDepth callee given span ↔ m.settings.maxDepth ≤ m.frames.size := by
  unfold RefusesDepth callable
  simp only [Step.bind_apply, Step.get, hf, ofExcept_mapError_ok, Step.pure_apply]
  constructor
  · rintro ⟨failure, m', hc, hk⟩
    refine Decidable.byContradiction fun hroom => ?_
    rw [if_neg hroom] at hc
    split at hc
    · cases hc
      cases hk
    · cases hc
  · intro hfull
    rw [if_pos hfull]
    exact ⟨_, _, rfl, rfl⟩

end Machine

namespace Session

open Machine (Moment Idle)

/-- The machine after entries were taken one after the other. -/
def after (rounds : Nat) (r : Reading) : List Bytes → Machine → Machine
  | [], m => m
  | entry :: rest, m => after rounds r rest (enter rounds r entry m).2

section Kept

variable {rounds : Nat} {r : Reading} {I : Machine → Prop}
  (hkept : ∀ entry m, I m → I (enter rounds r entry m).2)
include hkept

/-- What every entry keeps is kept by a session. -/
theorem after_of_kept (entries : List Bytes) {m : Machine} (h : I m) :
    I (after rounds r entries m) := by
  induction entries generalizing m with
  | nil => exact h
  | cons entry rest ih => exact ih (hkept entry m h)

/-- What happens in a session happens while one entry is taken, by a machine of which holds what every
entry keeps. -/
theorem exists_record_of_mem_history {entries : List Bytes} {m : Machine} (h : I m)
    {moment : Moment} (hm : moment ∈ history rounds r entries m) :
    ∃ entry m', I m' ∧ moment ∈ record rounds r entry m' := by
  induction entries generalizing m with
  | nil => simp [history] at hm
  | cons entry rest ih =>
    have hi := hkept entry m h
    rw [history, List.mem_append] at hm
    obtain hm | hm := hm
    · exact ⟨entry, m, h, hm⟩
    · rcases he : enter rounds r entry m with ⟨answer, m'⟩
      rw [he] at hm hi
      cases answer with
      | endless => simp at hm
      | unparsed | failed | value => exact ih hi hm

end Kept

private theorem enter_idle (rounds : Nat) (r : Reading) (entry : Bytes) {m : Machine}
    (h : Idle m) :
    (∀ moment ∈ record rounds r entry m, moment.InOrder m.settings) ∧
      Idle (enter rounds r entry m).2 ∧ (enter rounds r entry m).2.settings = m.settings := by
  simp only [record, enter, run]
  -- what is logged about the parse does not matter
  have hlogged : ∀ s, Idle (noteParse r s m) := fun s => ⟨h.frames, h.scopes, h.scope, h.flags⟩
  cases Syntax.parseEntry r.limits entry with
  | ok node s =>
    cases node with
    | none => exact ⟨by simp, hlogged s, rfl⟩
    | some node =>
      obtain ⟨ho, -⟩ := Machine.walk_orderly rounds node (noteParse r s m) (hlogged s).atLevel
      have hi := Machine.interpret_leavesIdle rounds node (hlogged s)
      refine ⟨ho, ?_⟩
      simp only [interpret]
      generalize Machine.interpret rounds node (noteParse r s m) = result at hi ⊢
      cases result with
      | ok v m' => exact hi
      | error e m' => exact hi
      | exhausted => exact ⟨hlogged s, rfl⟩
  | error d s => exact ⟨by simp, hlogged s, rfl⟩
  | exhausted => exact ⟨by simp, h, rfl⟩

theorem enter_keeps_idle (settings : Machine.Settings) (rounds : Nat) (r : Reading) (entry : Bytes)
    (m : Machine) (h : Idle m ∧ m.settings = settings) :
    Idle (enter rounds r entry m).2 ∧ (enter rounds r entry m).2.settings = settings := by
  obtain ⟨-, hidle, hs⟩ := enter_idle rounds r entry h.1
  exact ⟨hidle, hs.trans h.2⟩

/-- At every moment of a session the frames are within the limit, there is one scope for each of
them besides the global one, and evaluation goes on in the last. A call of a function is refused
for its depth just when the limit is reached. After every entry no call is left. -/
theorem calls_in_order (settings : Machine.Settings) (disk : Disk) (input : Console.Input)
    (output : Console.Output) (rounds : Nat) (r : Reading) (entries : List Bytes) :
    (∀ moment ∈ history rounds r entries { settings, disk, input, output },
      moment.InOrder settings ∧
      ∀ callee arguments span f, moment.note = .starts (.call callee arguments span) →
        moment.machine.arena.function moment.machine.scope callee.name = .ok f →
        (moment.machine.RefusesDepth callee arguments.length span ↔
          moment.machine.frames.size = settings.maxDepth)) ∧
    Idle (after rounds r entries { settings, disk, input, output }) := by
  have hfresh : Idle { settings, disk, input, output } := ⟨rfl, rfl, rfl, rfl⟩
  have hkept := enter_keeps_idle settings rounds r
  refine ⟨fun moment hm => ?_, (after_of_kept hkept entries ⟨hfresh, rfl⟩).1⟩
  obtain ⟨entry, m, ⟨hidle, hs⟩, hm⟩ := exists_record_of_mem_history hkept ⟨hfresh, rfl⟩ hm
  have ho := (enter_idle rounds r entry hidle).1 moment hm
  rw [hs] at ho
  refine ⟨ho, fun callee arguments span f _ hf => ?_⟩
  rw [Machine.refusesDepth_iff arguments.length span hf, ho.settings_eq]
  exact ⟨fun hfull => Nat.le_antisymm ho.frames hfull, fun hfull => Nat.le_of_eq hfull.symm⟩

/-- Whether a function is about to be called while so many calls are active. -/
private def isCallAt (frames : Nat) : Moment → Bool
  | ⟨.starts (.call callee _ _), m⟩ =>
    m.frames.size == frames && (m.arena.function m.scope callee.name).toOption.isSome
  | _ => false

private theorem exists_of_isCallAt {frames : Nat} {moment : Moment} (h : isCallAt frames moment) :
    ∃ callee arguments span f, moment.note = .starts (.call callee arguments span) ∧
      moment.machine.arena.function moment.machine.scope callee.name = .ok f ∧
      moment.machine.frames.size = frames := by
  unfold isCallAt at h
  split at h
  · next callee arguments span m =>
    simp only [Bool.and_eq_true, beq_iff_eq] at h
    obtain ⟨hsize, hf⟩ := h
    cases hfn : m.arena.function m.scope callee.name with
    | error e =>
      rw [hfn] at hf
      cases hf
    | ok f => exact ⟨callee, arguments, span, f, rfl, hfn, hsize⟩
  · cases h

/-- A function that calls itself without end is stopped, and the next entry finds no call left. -/
theorem calls_in_order_endless :
    (∃ moment ∈ history 1 ⟨{}, false⟩ ["kawaii down(n) => modoru down(n + 1);", "down(0)"]
        { settings := { maxDepth := 2 } }, ∃ callee given span,
      moment.machine.frames.size = 2 ∧ moment.machine.RefusesDepth callee given span) ∧
    Idle (after 1 ⟨{}, false⟩ ["kawaii down(n) => modoru down(n + 1);", "down(0)"]
      { settings := { maxDepth := 2 } }) := by
  obtain ⟨hall, hidle⟩ := calls_in_order { maxDepth := 2 } {} {} {} 1 ⟨{}, false⟩
    ["kawaii down(n) => modoru down(n + 1);", "down(0)"]
  refine ⟨?_, hidle⟩
  obtain ⟨moment, hm, hcall⟩ := List.any_eq_true.mp (show (history 1 ⟨{}, false⟩
    ["kawaii down(n) => modoru down(n + 1);", "down(0)"] { settings := { maxDepth := 2 } }).any
      (isCallAt 2) from by decide +kernel)
  obtain ⟨callee, arguments, span, f, hn, hf, hsize⟩ := exists_of_isCallAt hcall
  exact ⟨moment, hm, callee, arguments.length, span, hsize,
    ((hall moment hm).2 callee arguments span f hn hf).mpr hsize⟩

end Session

end Kotoba
