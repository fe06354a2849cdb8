import Kotoba.Proofs.Machine.Inside
import Kotoba.Proofs.Machine.Record

/-! Calls of pure functions on machines that remember nothing. Such a call leaves the machine as it
was, and what it returns depends on nothing but the function and its arguments. -/
namespace Kotoba.Machine

/-- Machines between which evaluation makes no difference, but for what it remembers and logs. -/
structure Twin (m n : Machine) : Prop where
  maxDepth : m.settings.maxDepth = n.settings.maxDepth
  arena : m.arena = n.arena
  scope : m.scope = n.scope
  frames : m.frames = n.frames
  flags : m.flags = n.flags
  store : m.store = n.store
  disk : m.disk = n.disk
  input : m.input = n.input
  output : m.output = n.output

namespace Twin

variable {m n o : Machine}

theorem symm (h : Twin m n) : Twin n m :=
  ⟨h.maxDepth.symm, h.arena.symm, h.scope.symm, h.frames.symm, h.flags.symm, h.store.symm,
    h.disk.symm, h.input.symm, h.output.symm⟩

theorem trans (h : Twin m n) (h' : Twin n o) : Twin m o :=
  ⟨h.maxDepth.trans h'.maxDepth, h.arena.trans h'.arena, h.scope.trans h'.scope,
    h.frames.trans h'.frames, h.flags.trans h'.flags, h.store.trans h'.store,
    h.disk.trans h'.disk, h.input.trans h'.input, h.output.trans h'.output⟩

end Twin

/-- A machine that remembers nothing, and never will. -/
def Forgetful (m : Machine) : Prop := m.memory = { capacity := 0 }

/-- The bindings with parameters bound to arguments. -/
def bound : List (String × Value) → List (String × Symbol) → List (String × Symbol)
  | [], bindings => bindings
  | (x, v) :: rest, bindings => bound rest (Scope.insertInto x (.of v) bindings)

/-- Whether no parameter is bound twice. -/
def isBindable : List (String × Value) → List (String × Symbol) → Bool
  | [], _ => true
  | (x, v) :: rest, bindings =>
    (bindings.lookup x).isNone && isBindable rest (Scope.insertInto x (.of v) bindings)

/-- A machine on which a call has been set up. -/
def entered (b : Machine) (frame : Frame) (bindings : List (String × Symbol)) : Machine :=
  { b with arena := b.arena.above frame.name bindings, frames := b.frames.push frame }

theorem enter_apply (f : Function) (span : Span) (b : Machine) :
    enter f span b = .ok b.arena.top (entered b ⟨f.name, span⟩ []) := rfl

theorem bindParams_entered (function : String) (span : Span) (b : Machine) (frame : Frame)
    (pairs : List (String × Value)) (bindings : List (String × Symbol)) :
    (isBindable pairs bindings ∧ bindParams function b.arena.top span pairs
        (entered b frame bindings) = .ok () (entered b frame (bound pairs bindings))) ∨
      (isBindable pairs bindings = false ∧ ∃ e m, bindParams function b.arena.top span pairs
        (entered b frame bindings) = .error e m) := by
  induction pairs generalizing bindings with
  | nil => exact .inl ⟨rfl, rfl⟩
  | cons pair rest ih =>
    obtain ⟨x, v⟩ := pair
    have hlookup : (entered b frame bindings).arena.localSymbol? b.arena.top x =
        bindings.lookup x := Arena.localSymbol?_above_top x
    have hdefine : (entered b frame bindings).arena.define b.arena.top x v =
        b.arena.above frame.name (Scope.insertInto x (.of v) bindings) := Arena.define_above x v
    simp only [bindParams, Step.bind_apply, Step.gets, hlookup, isBindable]
    cases hx : bindings.lookup x with
    | some s => exact .inr ⟨rfl, _, _, rfl⟩
    | none =>
      have ih := ih (Scope.insertInto x (.of v) bindings)
      simp only [Option.isNone_none, Bool.true_and, Option.isSome_none, Bool.false_eq_true,
        if_false, Step.bind_apply, Step.modify, hdefine, bound]
      exact ih

theorem bindParams_ok {function : String} {span : Span} {b m : Machine} {frame : Frame}
    {pairs : List (String × Value)} {bindings : List (String × Symbol)}
    (h : bindParams function b.arena.top span pairs (entered b frame bindings) = .ok () m) :
    isBindable pairs bindings ∧ m = entered b frame (bound pairs bindings) := by
  obtain ⟨hp, hb⟩ | ⟨-, e, m', hb⟩ := bindParams_entered function span b frame pairs bindings
  · rw [hb] at h
    cases h
    exact ⟨hp, rfl⟩
  · rw [hb] at h
    cases h

/-- The machine after a call that was made on `b`, when the body ended in `m`. -/
def left (b m : Machine) : Machine :=
  { m with scope := b.scope, arena := m.arena.pop b.arena.top, frames := m.frames.pop
           flags := ⟨b.flags.breaking, b.flags.continuing, false, .nothing⟩ }

theorem twin_left {b m : Machine} {frame : Frame} {bindings : List (String × Symbol)}
    (hb : b.arena.IsRooted) (hf : b.flags = {}) (h : Inside b frame bindings m) :
    Twin b (left b m) where
  maxDepth := h.maxDepth.symm
  arena := by simp only [left, h.arena, Arena.pop_above hb]
  scope := rfl
  frames := by simp [left, h.frames]
  flags := by rw [left, hf]
  store := h.store.symm
  disk := h.disk.symm
  input := h.input.symm
  output := h.output.symm

private theorem recalled_forgetful {m : Machine} (h : Forgetful m) (key : Digest) :
    recalled? key m = .ok none m := by
  cases m
  cases h
  rfl

theorem trace_eq (text : Bytes) (m : Machine) :
    ∃ log, Eval.trace text m = .ok () { m with log := log } := by
  simp only [Eval.trace, Step.modify]
  split
  · exact ⟨_, rfl⟩
  · exact ⟨m.log, rfl⟩

private theorem trace_ok {text : Bytes} {m m' : Machine} {u : Unit}
    (h : Eval.trace text m = .ok u m') : ∃ log, m' = { m with log := log } := by
  obtain ⟨log, hlog⟩ := trace_eq text m
  rw [hlog] at h
  cases h
  exact ⟨log, rfl⟩

/-- A call on a machine that remembers nothing runs the body. -/
theorem call_recorded_ok {b b' : Machine} (hf : Forgetful b) {run : Option Body → Recorded Unit}
    {f : Function} {args : List Value} {span : Span} {v : Value} {t : List Moment}
    (h : recorded.call (recorded.within run) f args span b = (.ok v b', t)) (hj : Jumpless t) :
    isBindable (f.params.zip args) [] ∧ b.flags = {} ∧
      ⟨.calls f args b.arena.top, entered b ⟨f.name, span⟩ (bound (f.params.zip args) [])⟩ ∈ t ∧
      ∃ m m' t', Inside b ⟨f.name, span⟩ (bound (f.params.zip args) []) m ∧
        m.flags = {} ∧ Forgetful m ∧ run f.body m = (.ok () m', t') ∧
        (∀ moment ∈ t', moment ∈ t) ∧ v = m'.flags.result ∧
        ∃ key, b' = { left b m' with memory := m'.memory.add key v } := by
  obtain ⟨scope, b₁, henter, h₁⟩ := lift_bind_ok h
  rw [enter_apply] at henter
  cases henter
  obtain ⟨_, b₂, hparams, h₂⟩ := lift_bind_ok h₁
  obtain ⟨hbindable, rfl⟩ := bindParams_ok hparams
  obtain ⟨t₃, h₃, rfl⟩ := note_bind_ok h₂
  have hflags : b.flags = {} := hj _ List.mem_cons_self
  refine ⟨hbindable, hflags, by simp, ?_⟩
  obtain ⟨key, b₄, hkey, h₄⟩ := lift_bind_ok h₃
  cases hkey
  obtain ⟨depth, b₅, hdepth, h₅⟩ := lift_bind_ok h₄
  cases hdepth
  obtain ⟨found, b₆, hfound, h₆⟩ := lift_bind_ok h₅
  have hf' : Forgetful (entered b ⟨f.name, span⟩ (bound (f.params.zip args) [])) := hf
  rw [recalled_forgetful hf'] at hfound
  cases hfound
  obtain ⟨_, b₇, htrace, h₇⟩ := lift_bind_ok h₆
  obtain ⟨log, rfl⟩ := trace_ok htrace
  obtain ⟨w, b₈, t₈, u₈, hwithin, h₈, rfl⟩ := Recorded.bind_ok h₇
  obtain ⟨_, b₉, hleave, h₉⟩ := lift_bind_ok h₈
  cases hleave
  obtain ⟨_, b₁₀, hremember, h₁₀⟩ := lift_bind_ok h₉
  cases hremember
  obtain ⟨u, hend, rfl⟩ := note_bind_ok h₁₀
  cases hend
  obtain ⟨saved, m, hin, hrun⟩ := lift_bind_ok hwithin
  cases hin
  obtain ⟨_, m', t', u', hrun', hout, rfl⟩ := Recorded.bind_ok hrun
  obtain ⟨hout, rfl⟩ := Prod.mk.inj hout
  cases hout
  refine ⟨_, m', t', ?_, ?_, ?_, hrun', fun moment hm => ?_, rfl, _, rfl⟩
  · exact ⟨rfl, rfl, rfl, rfl, rfl, rfl, rfl, rfl⟩
  · show ({ b.flags with breaking := false, continuing := false } : Flags) = {}
    rw [hflags]
  · exact hf
  · simp [hm]

namespace Paired

variable {lib : Library} {b c m n m' n' : Machine} {frame frame' : Frame}

theorem of_twin (h : Paired lib b c frame frame' m n) (hm : Twin m m') (hn : Twin n n') :
    Paired lib b c frame frame' m' n' := by
  obtain ⟨⟨bindings, hg, hb, hc⟩, hflags, hgood⟩ := h
  refine ⟨⟨bindings, hg, ?_, ?_⟩, ?_, ?_⟩
  · exact ⟨hm.maxDepth ▸ hb.maxDepth, hm.arena ▸ hb.arena, hm.scope ▸ hb.scope,
      hm.frames ▸ hb.frames, hm.store ▸ hb.store, hm.disk ▸ hb.disk, hm.input ▸ hb.input,
      hm.output ▸ hb.output⟩
  · exact ⟨hn.maxDepth ▸ hc.maxDepth, hn.arena ▸ hc.arena, hn.scope ▸ hc.scope,
      hn.frames ▸ hc.frames, hn.store ▸ hc.store, hn.disk ▸ hc.disk, hn.input ▸ hc.input,
      hn.output ▸ hc.output⟩
  · rw [← hm.flags, ← hn.flags, hflags]
  · exact hm.flags ▸ hgood

theorem fits (h : Paired lib b c frame frame' m n) (hb : lib.Fits b) (hc : lib.Fits c) :
    lib.Fits m ∧ lib.Fits n := by
  obtain ⟨⟨bindings, -, hm, hn⟩, -, -⟩ := h
  exact ⟨hm.fits hb, hn.fits hc⟩

theorem good_result (h : Paired lib b c frame frame' m n) : lib.Good m.flags.result := by
  unfold Flags.result
  split
  · next hr =>
    split
    · exact .inl rfl
    · exact h.good hr
  · exact .inl rfl

end Paired

theorem goodBindings_bound {lib : Library} {pairs : List (String × Value)}
    {bindings : List (String × Symbol)} (hb : lib.GoodBindings bindings)
    (hp : ∀ pair ∈ pairs, lib.Good pair.2) : lib.GoodBindings (bound pairs bindings) := by
  induction pairs generalizing bindings with
  | nil => exact hb
  | cons pair rest ih =>
    simp only [List.mem_cons, forall_eq_or_imp] at hp
    exact ih (hb.insert pair.1 hp.1) hp.2

/-- Runs that remember nothing, inside of calls with the same bindings, come to the same if both
come to an end. -/
def Alike (lib : Library) (b c : Machine) (frame frame' : Frame) {α : Type} (P : α → Prop)
    (x y : Recorded α) : Prop :=
  ∀ m n, Paired lib b c frame frame' m n → Forgetful m → Forgetful n →
    ∀ {v m' t w n' u}, x m = (.ok v m', t) → y n = (.ok w n', u) → Jumpless t → Jumpless u →
      v = w ∧ P v ∧ Paired lib b c frame frame' m' n' ∧ Forgetful m' ∧ Forgetful n'

def alike (lib : Library) (b c : Machine) (frame frame' : Frame) : Bridge Recorded Recorded where
  Rel := Alike lib b c frame frame'
  pure {α P a} ha := by
    intro m n h hm hn v m' t w n' u hx hy _ _
    cases hx
    cases hy
    exact ⟨rfl, ha, h, hm, hn⟩
  bind {α β P Q x y f g} hxy hfg := by
    intro m n h hm hn v m' t w n' u hx hy ht hu
    obtain ⟨a, m₁, t₁, t₂, hx₁, hx₂, rfl⟩ := Recorded.bind_ok hx
    obtain ⟨a', n₁, u₁, u₂, hy₁, hy₂, rfl⟩ := Recorded.bind_ok hy
    obtain ⟨rfl, ha, h₁, hm₁, hn₁⟩ := hxy m n h hm hn hx₁ hy₁ ht.left hu.left
    exact hfg a ha m₁ n₁ h₁ hm₁ hn₁ hx₂ hy₂ ht.right hu.right

/-- Calls of a function with the same arguments on machines that remember nothing come to the same
if both come to an end, and they leave the machines as they were. -/
def CallsAlike (lib : Library) (h k : Host Recorded) : Prop :=
  ∀ ⦃f args span span' b c v b' t w c' u⦄, lib.Fits b → lib.Fits c → Forgetful b → Forgetful c →
    lib.Holds f → (∀ v ∈ args, lib.Good v) → h.call f args span b = (.ok v b', t) →
    k.call f args span' c = (.ok w c', u) → Jumpless t → Jumpless u →
    v = w ∧ lib.Good v ∧ Twin b b' ∧ Twin c c' ∧ Forgetful b' ∧ Forgetful c'

private theorem holds_of_good {lib : Library} {f : Function} (h : lib.Good (.function f)) :
    lib.Holds f := by
  obtain h | ⟨g, hg, h⟩ := h
  · cases h
  · cases hg
    exact h

private theorem lockstep_alike {lib : Library} {b c : Machine} (hb : lib.Fits b) (hc : lib.Fits c)
    (frame frame' : Frame) {h k : Host Recorded} (hh : h.toMedium = recorded)
    (hk : k.toMedium = recorded) (hcalls : CallsAlike lib h k) :
    Lockstep (alike lib b c frame frame') h k lib.Good lib.Allows := by
  refine .of_call .inl ?names ?note ?act ?call
  case names => rintro x (h | ⟨f, h, -⟩) <;> cases h
  case note =>
    intro note _ m n h hm hn v m' t w n' u hx hy _ _
    rw [hh] at hx
    rw [hk] at hy
    cases hx
    cases hy
    exact ⟨rfl, trivial, h, hm, hn⟩
  case act =>
    intro α a ha ht m n h hm hn v m' t w n' u hx hy _ _
    rw [Host.act, hh] at hx
    rw [Host.act, hk] at hy
    obtain ⟨hx, -⟩ := Prod.mk.inj hx
    obtain ⟨hy, -⟩ := Prod.mk.inj hy
    have hroom : a.needsRoom → n.frames.size < n.settings.maxDepth := by
      intro hr
      cases a with
      | callable => exact (Act.callable_ok hy).2.2.1
      | _ => cases hr
    obtain ⟨n'', hy', hg, h'⟩ := h.act hb hc ha ht hx hroom
    rw [hy] at hy'
    cases hy'
    refine ⟨rfl, hg, h', ?_, ?_⟩
    · exact ((Act.keeps_memory ha).of_ok hx).trans hm
    · exact ((Act.keeps_memory ha).of_ok hy).trans hn
  case call =>
    intro f args span hf hargs _ m n h hm hn v m' t w n' u hx hy ht hu
    obtain ⟨hfm, hfn⟩ := h.fits hb hc
    obtain ⟨rfl, hv, htm, htn, hm', hn'⟩ :=
      hcalls hfm hfn hm hn (holds_of_good hf) hargs hx hy ht hu
    exact ⟨rfl, hv, h.of_twin htm htn, hm', hn'⟩

/-- Calls come to the same if the runs of bodies do, on whatever machines. -/
private theorem calls_alike_of_bodies {lib : Library} {r s : Option Body → Recorded Unit}
    (hrs : ∀ {f : Function}, lib.Holds f → ∀ {b c}, lib.Fits b → lib.Fits c → ∀ frame frame',
      Alike lib b c frame frame' (fun _ => True) (r f.body) (s f.body)) :
    CallsAlike lib { recorded with call := recorded.call (recorded.within r) }
      { recorded with call := recorded.call (recorded.within s) } := by
  intro f args span span' b c v b' t w c' u hb hc hfb hfc hf hargs hx hy ht hu
  obtain ⟨-, hbf, -, m, m', t', him, hmf, hfm, hrun, hsub, rfl, key, rfl⟩ :=
    call_recorded_ok hfb hx ht
  obtain ⟨-, hcf, -, n, n', u', hin, hnf, hfn, hrun', hsub', rfl, key', rfl⟩ :=
    call_recorded_ok hfc hy hu
  have hgood : lib.GoodBindings (bound (f.params.zip args) []) := by
    refine goodBindings_bound (fun x s h => nomatch h) fun pair hp => ?_
    exact hargs _ (List.of_mem_zip hp).2
  have hpaired : Paired lib b c ⟨f.name, span⟩ ⟨f.name, span'⟩ m n :=
    ⟨⟨_, hgood, him, hin⟩, by rw [hmf, hnf], by simp [hmf]⟩
  obtain ⟨-, -, hpaired', hfm', hfn'⟩ := hrs hf hb hc _ _ m n hpaired hfm hfn hrun hrun'
    (fun moment h => ht moment (hsub moment h)) fun moment h => hu moment (hsub' moment h)
  have hres := hpaired'.good_result
  obtain ⟨⟨bindings, -, him', hin'⟩, hflags, -⟩ := hpaired'
  have htb := twin_left hb.rooted hbf him'
  have htc := twin_left hc.rooted hcf hin'
  refine ⟨by rw [hflags], hres, { htb with }, { htc with }, ?_, ?_⟩
  · show m'.memory.add key _ = _
    rw [hfm']
    rfl
  · show n'.memory.add key' _ = _
    rw [hfn']
    rfl

theorem calls_alike (lib : Library) (rounds depth depth' : Nat) :
    CallsAlike lib (recorded.host rounds depth) (recorded.host rounds depth') := by
  -- a run without calls to spare never comes to an end
  have hnever : ∀ {b c frame frame'} {x : Recorded Unit},
      Alike lib b c frame frame' (fun _ => True) (recorded.lift Step.exhausted) x := by
    intro b c frame frame' x m n _ _ _ v m' t w n' u hx
    cases hx
  induction depth generalizing depth' with
  | zero => cases depth' <;> exact calls_alike_of_bodies fun _ _ _ _ _ _ _ => hnever
  | succ depth ih =>
    cases depth' with
    | zero =>
      refine calls_alike_of_bodies fun _ _ _ _ _ _ _ => ?_
      intro m n _ _ _ v m' t w n' u _ hy
      cases hy
    | succ depth' =>
      refine calls_alike_of_bodies fun {f} hf {b c} hb hc frame frame' => ?_
      have L := lockstep_alike hb hc frame frame' (recorded.host_toMedium rounds depth)
        (recorded.host_toMedium rounds depth') (ih depth')
      refine L.body? rounds f.body fun u hu => ?_
      have hp := lib.pure hf u hu
      cases u <;> exact hp

end Kotoba.Machine
