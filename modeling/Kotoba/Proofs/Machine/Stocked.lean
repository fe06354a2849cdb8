import Kotoba.Proofs.Machine.Key
import Kotoba.Proofs.Machine.Sound

/-! Calls of pure functions on machines that remember results. What is remembered is what the
bodies would return, so a machine that remembers keeps in step with one that does not. -/
namespace Kotoba

namespace Machine

/-- The arguments of a call, at the moment when it has bound its parameters. -/
def Moment.arguments (moment : Moment) : List Value :=
  match moment.note with
  | .calls _ arguments _ => arguments
  | _ => []

/-- The content of the scope of a call, at the moment when it has bound its parameters. -/
def Moment.content? (moment : Moment) : Option Bytes :=
  match moment.note with
  | .calls _ _ scope =>
    (moment.machine.arena.scope? scope).map fun s => s.content moment.machine.store
  | _ => none

/-- The contents of the scopes of calls on record. -/
def contents (record : List Moment) : List Bytes := record.filterMap Moment.content?

/-- Whether all arguments of calls on record are scalars. -/
def ScalarCalls (record : List Moment) : Prop :=
  ∀ moment ∈ record, ∀ v ∈ moment.arguments, v.isScalar

instance (record : List Moment) : Decidable (ScalarCalls record) :=
  inferInstanceAs (Decidable (∀ moment ∈ record, ∀ v ∈ moment.arguments, v.isScalar))

/-- Whether no two different contents of scopes on record have the same digest. -/
def NoCollision (record : List Moment) : Prop :=
  ∀ c ∈ contents record, ∀ d ∈ contents record, Digest.ofBytes c = Digest.ofBytes d → c = d

instance (record : List Moment) : Decidable (NoCollision record) :=
  inferInstanceAs (Decidable (∀ c ∈ contents record, ∀ d ∈ contents record,
    Digest.ofBytes c = Digest.ofBytes d → c = d))

/-- Whether all calls of a function with the given arguments that run to an end, on machines that
remember nothing, return the given value. -/
def Yields (lib : Library) (rounds : Nat) (f : Function) (args : List Value) (w : Value) : Prop :=
  ∀ ⦃depth span b v b' t⦄, lib.Fits b → Forgetful b →
    (recorded.host rounds depth).call f args span b = (.ok v b', t) → Jumpless t → v = w

/-- Why a result may be remembered under a key: it is that of a call on record. -/
structure Backed (lib : Library) (rounds : Nat) (record : List Moment) (key : Digest) (w : Value)
    (f : Function) (args : List Value) : Prop where
  holds : lib.Holds f
  length : args.length = f.params.length
  scalar : ∀ v ∈ args, v.isScalar
  bindable : isBindable (f.params.zip args) []
  onRecord : callContent f args ∈ contents record
  key : key = Digest.ofBytes (callContent f args)
  yields : Yields lib rounds f args w

/-- A machine that remembers only what the bodies would return. -/
def Stocked (lib : Library) (rounds : Nat) (record : List Moment) (n : Machine) : Prop :=
  ∀ entry ∈ n.memory.entries, ∃ f args, Backed lib rounds record entry.1 entry.2 f args

namespace Stocked

variable {lib : Library} {rounds : Nat} {record : List Moment} {n n' : Machine}

theorem congr (h : Stocked lib rounds record n) (hm : n'.memory = n.memory) :
    Stocked lib rounds record n' := by
  unfold Stocked
  rw [hm]
  exact h

theorem get? (h : Stocked lib rounds record n) {key : Digest} {w : Value} {memory : Recall}
    (hg : n.memory.get? key = some (w, memory)) :
    (∃ f args, Backed lib rounds record key w f args) ∧
      ∀ entry ∈ memory.entries, ∃ f args, Backed lib rounds record entry.1 entry.2 f args := by
  simp only [Recall.get?, Option.map_eq_some_iff] at hg
  obtain ⟨v, hv, heq⟩ := hg
  obtain ⟨rfl, rfl⟩ := Prod.mk.inj heq
  obtain ⟨before, after, he, -⟩ := List.lookup_eq_some_iff.mp hv
  have hback := h (key, v) (by simp [he])
  refine ⟨hback, fun entry he => ?_⟩
  simp only [List.mem_cons] at he
  obtain rfl | he := he
  · exact hback
  · exact h entry (List.mem_filter.mp he).1

theorem add {key : Digest} {w : Value}
    (h : Stocked lib rounds record n) {f : Function} {args : List Value}
    (hb : Backed lib rounds record key w f args) :
    ∀ entry ∈ (n.memory.add key w).entries,
      ∃ f args, Backed lib rounds record entry.1 entry.2 f args := by
  intro entry he
  have he := List.mem_of_mem_take he
  simp only [List.mem_cons] at he
  obtain rfl | he := he
  · exact ⟨f, args, hb⟩
  · exact h entry (List.mem_filter.mp he).1

end Stocked

section Calls

variable (run : Run) {f : Function} {args : List Value} {span : Span} {n : Machine}

/-- The key under which the result of a call is remembered. -/
def callKey (n : Machine) (f : Function) (args : List Value) (span : Span) : Digest :=
  let entered := entered n ⟨f.name, span⟩ (bound (f.params.zip args) [])
  entered.arena.digest entered.store n.arena.top

private theorem bindParams_run (hb : isBindable (f.params.zip args) []) :
    bindParams f.name n.arena.top span (f.params.zip args) (entered n ⟨f.name, span⟩ []) =
      .ok () (entered n ⟨f.name, span⟩ (bound (f.params.zip args) [])) := by
  obtain ⟨-, h⟩ | ⟨h, -⟩ :=
    bindParams_entered f.name span n ⟨f.name, span⟩ (f.params.zip args) []
  · exact h
  · rw [hb] at h
    cases h

private theorem remark_eq (text : Bytes) (m : Machine) :
    ∃ log, Eval.remark text m = .ok () { m with log := log } := by
  simp only [Eval.remark, Step.modify]
  split
  · exact ⟨_, rfl⟩
  · exact ⟨m.log, rfl⟩

/-- A call whose result is remembered leaves the machine as it was. -/
theorem call_plain_hit (hn : n.arena.IsRooted) (hf : n.flags = {})
    (hb : isBindable (f.params.zip args) []) {w : Value} {memory : Recall}
    (hg : n.memory.get? (callKey n f args span) = some (w, memory)) :
    ∃ n', plain.call (plain.within run) f args span n = .ok w n' ∧ Twin n n' ∧
      n'.memory = memory := by
  let e := entered n ⟨f.name, span⟩ (bound (f.params.zip args) [])
  have hfound : recalled? (callKey n f args span) e =
      .ok (some w) { e with memory := memory, hits := e.hits + 1 } := by
    simp only [recalled?, Step.modifyGet]
    rw [show e.memory = n.memory from rfl, hg]
  obtain ⟨log, hremark⟩ := remark_eq
    (Bytes.ofString s!"call cache hit for {f.name} (depth {e.frames.size})")
    { e with memory := memory, hits := e.hits + 1 }
  have hin : Inside n ⟨f.name, span⟩ (bound (f.params.zip args) []) { e with scope := n.arena.top } :=
    ⟨rfl, rfl, rfl, rfl, rfl, rfl, rfl, rfl⟩
  have htwin := twin_left hn hf hin
  refine ⟨{ left n e with
    flags := n.flags, memory := memory, hits := e.hits + 1, log := log }, ?_,
    { htwin with flags := rfl }, rfl⟩
  simp only [Medium.call, plain, Step.bind_apply, enter_apply, bindParams_run hb, Step.gets,
    Step.pure_apply]
  rw [show e.arena.digest e.store n.arena.top = callKey n f args span from rfl, hfound]
  simp only [Step.bind_apply]
  rw [hremark]
  rfl

/-- A call whose result is not remembered runs the body. -/
theorem call_plain_miss (hf : n.flags = {}) (hb : isBindable (f.params.zip args) [])
    (hg : n.memory.get? (callKey n f args span) = none) :
    ∃ e, Inside n ⟨f.name, span⟩ (bound (f.params.zip args) []) e ∧ e.flags = {} ∧
      e.memory = n.memory ∧ ∀ n', run f.body e = .ok () n' →
        plain.call (plain.within run) f args span n = .ok n'.flags.result
          { left n n' with
            memory := n'.memory.add (callKey n f args span) n'.flags.result } := by
  let e := entered n ⟨f.name, span⟩ (bound (f.params.zip args) [])
  have hfound : ∃ misses, recalled? (callKey n f args span) e =
      .ok none { e with misses := misses } := by
    simp only [recalled?, Step.modifyGet]
    rw [show e.memory = n.memory from rfl, hg]
    dsimp only
    split
    · exact ⟨_, rfl⟩
    · exact ⟨e.misses, rfl⟩
  obtain ⟨misses, hfound⟩ := hfound
  obtain ⟨log, htrace⟩ := trace_eq (Bytes.ofString s!"call {f.name} depth={e.frames.size}")
    { e with misses := misses }
  refine ⟨{ e with
      misses := misses, log := log, scope := n.arena.top
      flags := ⟨false, false, e.flags.returning, e.flags.returnValue⟩ },
    ⟨rfl, rfl, rfl, rfl, rfl, rfl, rfl, rfl⟩, ?_, rfl, fun n' hrun => ?_⟩
  · simp only [show e.flags = {} from hf]
  simp only [Medium.call, plain, Step.bind_apply, enter_apply, bindParams_run hb, Step.gets,
    Step.pure_apply]
  rw [show e.arena.digest e.store n.arena.top = callKey n f args span from rfl, hfound]
  simp only [Step.bind_apply]
  rw [htrace]
  simp only [Medium.within, Medium.swapIn, Step.bind_apply, Step.modifyGet]
  rw [hrun]
  rfl

end Calls

/-- What is assumed of a library and of the record of a run that remembers nothing. -/
structure Assumed (lib : Library) (record : List Moment) : Prop where
  /-- The names of functions are words. -/
  names : ∀ {x f}, lib.function? x = some f → '\x00' ∉ x.toList
  scalar : ScalarCalls record
  distinct : NoCollision record
  jumpless : Jumpless record

/-- A run that remembers nothing is followed by one that remembers results. -/
def Follows (lib : Library) (rounds : Nat) (record : List Moment) (scope : Int) {α : Type}
    (P : α → Prop) (x : Recorded α) (y : Eval α) : Prop :=
  ∀ m n, Close lib scope m n → Forgetful m → Stocked lib rounds record n →
    ∀ {a m' t}, x m = (.ok a m', t) → (∀ moment ∈ t, moment ∈ record) →
      ∃ n', y n = .ok a n' ∧ P a ∧ Close lib scope m' n' ∧ Forgetful m' ∧
        Stocked lib rounds record n'

def follows (lib : Library) (rounds : Nat) (record : List Moment) (scope : Int) :
    Bridge Recorded Eval where
  Rel := Follows lib rounds record scope
  pure {α P a} ha := by
    intro m n hmn hm hn b m' t hx _
    cases hx
    exact ⟨n, rfl, ha, hmn, hm, hn⟩
  bind {α β P Q x y f g} hxy hfg := by
    intro m n hmn hm hn b m' t hx ht
    obtain ⟨a, m₁, t₁, t₂, hx₁, hx₂, rfl⟩ := Recorded.bind_ok hx
    obtain ⟨n₁, hy₁, ha, hmn₁, hm₁, hn₁⟩ :=
      hxy m n hmn hm hn hx₁ fun moment h => ht moment (by simp [h])
    obtain ⟨n', hy₂, hb, hmn', hm', hn'⟩ :=
      hfg a ha m₁ n₁ hmn₁ hm₁ hn₁ hx₂ fun moment h => ht moment (by simp [h])
    exact ⟨n', by rw [Step.bind_apply, hy₁]; exact hy₂, hb, hmn', hm', hn'⟩

variable {lib : Library} {rounds : Nat} {record : List Moment}

/-- Calls of functions of the program that remember nothing are followed by calls that remember
results. -/
def CallsFollow (lib : Library) (rounds : Nat) (record : List Moment) (h : Host Recorded)
    (k : Host Eval) : Prop :=
  ∀ (scope : Int) (f : Function) (args : List Value) (span : Span), lib.Holds f →
    args.length = f.params.length →
    Follows lib rounds record scope lib.Known (h.call f args span) (k.call f args span)

private theorem lockstep_follows {scope : Int} {h : Host Recorded} {k : Host Eval}
    (hh : h.toMedium = recorded) (hk : k.toMedium = plain)
    (hcalls : CallsFollow lib rounds record h k) :
    Lockstep (follows lib rounds record scope) h k lib.Known (lib.Frees scope) := by
  refine .of_call Library.known_of_isPlain (fun _ => trivial) ?note ?act fun f args span hf _ hlen =>
    hcalls scope f args span (hf f rfl) hlen
  case note =>
    intro note _ m n hmn hm hn a m' t hx _
    rw [hh] at hx
    rw [hk]
    cases hx
    exact ⟨n, rfl, trivial, hmn, hm, hn⟩
  case act =>
    intro α a ha ht m n hmn hm hn r m' t hx _
    rw [Host.act, hh] at hx
    rw [Host.act, hk]
    obtain ⟨hx, -⟩ := Prod.mk.inj hx
    obtain ⟨n', hy, hr, hmn'⟩ := Carries.act ha ht m n hmn hx
    refine ⟨n', hy, hr, hmn', ?_, ?_⟩
    · exact ((Act.keeps_memory ha).of_ok hx).trans hm
    · exact hn.congr ((Act.keeps_memory ha).of_ok hy)

theorem Sound.of_twin {scope : Int} {m m' : Machine} (h : Sound lib scope m) (ht : Twin m m') :
    Sound lib scope m' :=
  h.congr ht.arena.symm ht.scope.symm (by rw [ht.store]) ht.flags.symm

/-- Machines inside of calls with the same bindings, made on twins. -/
private theorem twin_of_inside {b c m n : Machine} {frame : Frame}
    {bindings : List (String × Symbol)} (hbc : Twin b c) (hm : Inside b frame bindings m)
    (hn : Inside c frame bindings n) (hf : m.flags = n.flags) : Twin m n where
  maxDepth := by rw [hm.maxDepth, hn.maxDepth, hbc.maxDepth]
  arena := by rw [hm.arena, hn.arena, hbc.arena]
  scope := by rw [hm.scope, hn.scope, hbc.arena]
  frames := by rw [hm.frames, hn.frames, hbc.frames]
  flags := hf
  store := by rw [hm.store, hn.store, hbc.store]
  disk := by rw [hm.disk, hn.disk, hbc.disk]
  input := by rw [hm.input, hn.input, hbc.input]
  output := by rw [hm.output, hn.output, hbc.output]

private theorem twin_left_of_twin {b c m n : Machine} (hbc : Twin b c) (hmn : Twin m n) :
    Twin (left b m) (left c n) where
  maxDepth := hmn.maxDepth
  arena := by simp only [left, hmn.arena, hbc.arena]
  scope := hbc.scope
  frames := by simp only [left, hmn.frames]
  flags := by simp only [left, hbc.flags]
  store := hmn.store
  disk := hmn.disk
  input := hmn.input
  output := hmn.output

/-- A machine is sound inside of a call with scalars. -/
private theorem Sound.inside {scope : Int} {b m : Machine} {f : Function} {args : List Value}
    {frame : Frame} (h : Sound lib scope b) (hargs : ∀ v ∈ args, v.isScalar)
    (hm : Inside b frame (bound (f.params.zip args) []) m) (hf : m.flags = {}) :
    Sound lib b.arena.top m where
  scope := hm.scope
  fits := hm.fits h.fits
  bindings id x s hs := by
    rw [hm.arena] at hs
    obtain hs | hs := Arena.localSymbol?_above hs
    · obtain ⟨before, after, he, -⟩ := List.lookup_eq_some_iff.mp hs
      obtain ⟨v, hv, heq⟩ | hmem := mem_bound (b := (x, s)) (by rw [he]; simp)
      · have hscalar := hargs v (List.of_mem_zip hv).2
        rintro g hg
        change s = _ at heq
        rw [heq, Symbol.value_of] at hg
        rw [hg] at hscalar
        cases hscalar
      · cases hmem
    · exact h.bindings id x s hs
  elements array := by
    rw [hm.store]
    exact h.elements array
  returned hr := by
    rw [hf] at hr
    cases hr

private theorem good_of_isScalar {v : Value} (h : v.isScalar) : lib.Good v := by
  left
  cases v <;> first | rfl | cases h

private theorem Library.Good.known {v : Value} (h : lib.Good v) : lib.Known v := by
  obtain h | ⟨f, rfl, hf⟩ := h
  · exact Library.known_of_isPlain h
  · intro g hg
    cases hg
    exact hf

section Served

variable {f : Function} {args : List Value} {span : Span} {depth : Nat} {b b' : Machine}
  {v : Value} {t : List Moment}

private theorem host_call (rounds depth : Nat) :
    ∃ run, (recorded.host rounds depth).call = recorded.call (recorded.within run) := by
  cases depth <;> exact ⟨_, rfl⟩

/-- What a call on record says about its arguments. -/
private theorem arguments_of_call (ha : Assumed lib record) (hb : Forgetful b)
    (hcall : (recorded.host rounds depth).call f args span b = (.ok v b', t))
    (ht : ∀ moment ∈ t, moment ∈ record) :
    (∀ v ∈ args, v.isScalar) ∧ isBindable (f.params.zip args) [] ∧
      callContent f args ∈ contents record := by
  obtain ⟨run, hrun⟩ := host_call rounds depth
  rw [hrun] at hcall
  obtain ⟨hbindable, -, hmoment, -⟩ :=
    call_recorded_ok hb hcall fun moment h => ha.jumpless moment (ht moment h)
  have hscalar : ∀ v ∈ args, v.isScalar := ha.scalar _ (ht _ hmoment)
  exact ⟨hscalar, hbindable,
    List.mem_filterMap.mpr ⟨_, ht _ hmoment, content_entered hscalar b span⟩⟩

/-- The result of a call on record may be remembered. -/
private theorem backed_of_call (ha : Assumed lib record) (hb : Forgetful b) (hfits : lib.Fits b)
    (hf : lib.Holds f) (hlen : args.length = f.params.length)
    (hcall : (recorded.host rounds depth).call f args span b = (.ok v b', t))
    (ht : ∀ moment ∈ t, moment ∈ record) :
    Backed lib rounds record (Digest.ofBytes (callContent f args)) v f args := by
  obtain ⟨hscalar, hbindable, honRecord⟩ := arguments_of_call ha hb hcall ht
  refine ⟨hf, hlen, hscalar, hbindable, honRecord, rfl, ?_⟩
  intro depth' span' c w c' u hc hforget hother hu
  have hgood : ∀ v ∈ args, lib.Good v := fun v hv => good_of_isScalar (hscalar v hv)
  exact (calls_alike lib rounds depth' depth hc hfits hforget hb hf hgood hother hcall hu
    fun moment h => ha.jumpless moment (ht moment h)).1

/-- A remembered result is that of the call at hand. -/
private theorem eq_of_backed (ha : Assumed lib record) (hb : Forgetful b) (hfits : lib.Fits b)
    (hf : lib.Holds f) (hlen : args.length = f.params.length)
    (hcall : (recorded.host rounds depth).call f args span b = (.ok v b', t))
    (ht : ∀ moment ∈ t, moment ∈ record) {g : Function} {others : List Value} {w : Value}
    (hw : Backed lib rounds record (Digest.ofBytes (callContent f args)) w g others) : v = w := by
  obtain ⟨hscalar, hbindable, honRecord⟩ := arguments_of_call ha hb hcall ht
  have heq := ha.distinct _ honRecord _ hw.onRecord hw.key
  have hname := name_of_callContent (ha.names hf) (ha.names hw.holds) hscalar hw.scalar heq
  have hfg : f = g := by
    have hholds := hf
    rw [Library.Holds, hname, hw.holds] at hholds
    exact (Option.some.inj hholds).symm
  subst hfg
  have hargs := args_of_callContent (ha.names hf) hscalar hw.scalar hlen hw.length hbindable
    hw.bindable heq
  subst hargs
  exact hw.yields hfits hb hcall fun moment h => ha.jumpless moment (ht moment h)

end Served

private theorem callKey_eq {f : Function} {args : List Value} (h : ∀ v ∈ args, v.isScalar)
    (n : Machine) (span : Span) :
    callKey n f args span = Digest.ofBytes (callContent f args) := by
  have hcontent := content_entered (f := f) h n span
  simp only [entered, Arena.scope?_above_top, Option.map_some, Option.some.injEq] at hcontent
  simp only [callKey, Arena.digest, entered, Arena.scope?_above_top]
  rw [hcontent]

/-- Calls follow if the bodies do. -/
private theorem calls_follow_of_bodies (ha : Assumed lib record) (depth : Nat)
    {r : Option Body → Recorded Unit} {s : Option Body → Eval Unit}
    (hr : (recorded.host rounds depth).call = recorded.call (recorded.within r))
    (hs : (plain.host rounds depth).call = plain.call (plain.within s))
    (hrs : ∀ {f : Function}, lib.Holds f → ∀ {scope}, scope ≠ Arena.global →
      Follows lib rounds record scope (fun _ => True) (r f.body) (s f.body)) :
    CallsFollow lib rounds record (recorded.host rounds depth) (plain.host rounds depth) := by
  intro scope f args span hf hlen b c hbc hb hc v b' t hx ht
  have hfits := hbc.sound.fits
  have hrooted : c.arena.IsRooted := hbc.twin.arena ▸ hfits.rooted
  obtain ⟨hscalar, hbindable, -⟩ := arguments_of_call ha hb hx ht
  have hkey := callKey_eq (f := f) hscalar c span
  have hback := backed_of_call ha hb hfits hf hlen hx ht
  have hjumpless : Jumpless t := fun moment h => ha.jumpless moment (ht moment h)
  -- the run that remembers nothing leaves its machine as it was
  have hgood : ∀ v ∈ args, lib.Good v := fun v hv => good_of_isScalar (hscalar v hv)
  obtain ⟨-, hv, htwin, -, hb', -⟩ :=
    calls_alike lib rounds depth depth hfits hfits hb hb hf hgood hx hx hjumpless hjumpless
  have hknown : lib.Known v := hv.known
  have hsound := hbc.sound.of_twin htwin
  have hx' := hx
  rw [hr] at hx'
  obtain ⟨-, hbflags, -, m, m', t', him, hflags, hforget, hbody, hsub, heq, key, rfl⟩ :=
    call_recorded_ok hb hx' hjumpless
  have hcflags : c.flags = {} := hbc.twin.flags ▸ hbflags
  rw [hs]
  cases hg : c.memory.get? (callKey c f args span) with
  | some found =>
    obtain ⟨w, memory⟩ := found
    obtain ⟨c', hcall, hcc', hmemory⟩ := call_plain_hit s hrooted hcflags hbindable hg
    obtain ⟨⟨g, others, hw⟩, hrest⟩ := hc.get? hg
    rw [hkey] at hw
    obtain rfl := eq_of_backed ha hb hfits hf hlen hx ht hw
    refine ⟨c', hcall, hknown, ⟨htwin.symm.trans (hbc.twin.trans hcc'), hsound⟩, hb', ?_⟩
    rw [Stocked, hmemory]
    exact hrest
  | none =>
    obtain ⟨e, hin, heflags, hmemory, hcall⟩ := call_plain_miss s hcflags hbindable hg
    have hclose : Close lib b.arena.top m e :=
      ⟨twin_of_inside hbc.twin him hin (hflags.trans heflags.symm),
        hbc.sound.inside hscalar him hflags⟩
    have htop : b.arena.top ≠ Arena.global := by
      have := hfits.rooted.size_pos
      unfold Arena.top Arena.global
      omega
    obtain ⟨n', hrun, -, hclose', -, hstocked⟩ := hrs hf htop m e hclose hforget
      (hc.congr hmemory) hbody fun moment h => ht moment (hsub moment h)
    have hflags' : n'.flags = m'.flags := hclose'.twin.flags.symm
    subst heq
    refine ⟨_, by rw [hcall n' hrun, hflags'], hknown, ⟨?_, hsound⟩, hb', ?_⟩
    · exact { twin_left_of_twin hbc.twin hclose'.twin with }
    · rw [hkey]
      exact hstocked.add hback

theorem calls_follow (ha : Assumed lib record) (depth : Nat) :
    CallsFollow lib rounds record (recorded.host rounds depth) (plain.host rounds depth) := by
  induction depth with
  | zero =>
    refine calls_follow_of_bodies ha 0 rfl rfl fun _ _ _ => ?_
    intro m n _ _ _ a m' t hx
    cases hx
  | succ depth ih =>
    refine calls_follow_of_bodies ha (depth + 1) rfl rfl fun {f} hf {scope} hscope => ?_
    have L : Lockstep (follows lib rounds record scope) _ _ _ _ := lockstep_follows
      (recorded.host_toMedium rounds depth) (plain.host_toMedium rounds depth) ih
    refine L.body? rounds f.body fun u _ => ?_
    cases u with
    | binds x => exact fun h => absurd h hscope
    | _ => trivial

/-- Trees that keep to what they are free to use are followed as well. -/
theorem body_follows (ha : Assumed lib record) (depth : Nat) {scope : Int} (body : Option Body)
    (hu : ∀ u ∈ Body.uses? body, lib.Frees scope u) :
    Follows lib rounds record scope (fun _ => True) ((recorded.host rounds depth).body? rounds body)
      ((plain.host rounds depth).body? rounds body) :=
  (lockstep_follows (recorded.host_toMedium rounds depth) (plain.host_toMedium rounds depth)
    (calls_follow ha depth)).body? rounds body hu

end Machine

end Kotoba
