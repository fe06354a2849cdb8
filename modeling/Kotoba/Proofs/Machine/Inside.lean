import Kotoba.Proofs.Machine.Lockstep
import Kotoba.Proofs.Scope.Arena

/-! Inside calls of pure functions. What such a call does is a matter of its own bindings and of
the functions of the program, whatever machine it is made on. -/
namespace Kotoba.Machine

/-- The functions of a program, by name, and the names that their bodies mention. The bodies make
use of nothing but names. -/
structure Library where
  function? : String → Option Function
  Mentions : String → Prop
  named : ∀ {x f}, function? x = some f → f.name = x
  pure : ∀ {x f}, function? x = some f → ∀ u ∈ Body.uses? f.body, match u with
    | .mentions y => Mentions y
    | u => u.isPure

namespace Library

variable (lib : Library)

/-- What the body of a function may make use of. -/
def Allows : Use → Prop
  | .mentions x => lib.Mentions x
  | u => u.isPure

/-- Whether a function is one of the program. -/
def Holds (f : Function) : Prop := lib.function? f.name = some f

/-- Whether a value can occur inside of a call. -/
def Good (v : Value) : Prop := v.isPlain ∨ ∃ f, v = .function f ∧ lib.Holds f

/-- Whether names are bound to values that can occur inside of a call. -/
def GoodBindings (bindings : List (String × Symbol)) : Prop :=
  ∀ x s, bindings.lookup x = some s → lib.Good s.value

/-- What a name means inside of a call. -/
def sees (bindings : List (String × Symbol)) (x : String) : Option Symbol :=
  (bindings.lookup x).or ((lib.function? x).map fun f => .of (.function f))

/-- A machine on which the functions of the program can be called: the names they mention are
bound to functions of the program or not at all. -/
structure Fits (m : Machine) : Prop where
  rooted : m.arena.IsRooted
  names : ∀ x, lib.Mentions x →
    m.arena.localSymbol? Arena.global x = (lib.function? x).map fun f => .of (.function f)

variable {lib}

theorem holds_of_function? {x : String} {f : Function} (h : lib.function? x = some f) :
    lib.Holds f := by
  rw [Holds, lib.named h, h]

theorem good_function {x : String} {f : Function} (h : lib.function? x = some f) :
    lib.Good (.function f) := .inr ⟨f, rfl, holds_of_function? h⟩

theorem good_sees {bindings : List (String × Symbol)} (hb : lib.GoodBindings bindings) {x : String}
    {s : Symbol} (h : lib.sees bindings x = some s) : lib.Good s.value := by
  unfold sees at h
  cases hl : bindings.lookup x with
  | some t =>
    rw [hl, Option.some_or] at h
    cases h
    exact hb x _ hl
  | none =>
    rw [hl, Option.none_or, Option.map_eq_some_iff] at h
    obtain ⟨f, hf, rfl⟩ := h
    exact good_function hf

theorem GoodBindings.insert {bindings : List (String × Symbol)} (hb : lib.GoodBindings bindings)
    (x : String) {v : Value} (hv : lib.Good v) :
    lib.GoodBindings (Scope.insertInto x (.of v) bindings) := by
  intro y s h
  rw [Scope.lookup_insertInto] at h
  split at h
  · cases h
    have hs : (Symbol.of v).value = v := by cases v <;> rfl
    rw [hs]
    exact hv
  · exact hb y s h

end Library

/-- A machine inside of a call that was made on `base`, with the given bindings. -/
structure Inside (base : Machine) (frame : Frame) (bindings : List (String × Symbol))
    (m : Machine) : Prop where
  maxDepth : m.settings.maxDepth = base.settings.maxDepth
  arena : m.arena = base.arena.above frame.name bindings
  scope : m.scope = base.arena.top
  frames : m.frames = base.frames.push frame
  store : m.store = base.store
  disk : m.disk = base.disk
  input : m.input = base.input
  output : m.output = base.output

namespace Inside

variable {lib : Library} {base m : Machine} {frame : Frame} {bindings : List (String × Symbol)}

theorem symbol? (h : Inside base frame bindings m) (hb : lib.Fits base) {x : String}
    (hx : lib.Mentions x) : m.arena.symbol? m.scope x = lib.sees bindings x := by
  rw [h.arena, h.scope, Arena.symbol?_above_top hb.rooted, hb.names x hx, Library.sees]

theorem fits (h : Inside base frame bindings m) (hb : lib.Fits base) : lib.Fits m where
  rooted := h.arena ▸ hb.rooted.above
  names x hx := by rw [h.arena, Arena.localSymbol?_above_global hb.rooted, hb.names x hx]

theorem define (h : Inside base frame bindings m) (x : String) (v : Value) :
    Inside base frame (Scope.insertInto x (.of v) bindings)
      { m with arena := m.arena.define m.scope x v } where
  maxDepth := h.maxDepth
  arena := by
    show m.arena.define m.scope x v = _
    rw [h.arena, h.scope, Arena.define_above]
  scope := h.scope
  frames := h.frames
  store := h.store
  disk := h.disk
  input := h.input
  output := h.output

end Inside

section Values

variable {lib : Library} {v w : Value}

theorem truthy_eq_of_good (hv : lib.Good v) (s t : Store) : s.truthy v = t.truthy v := by
  obtain hv | ⟨f, rfl, -⟩ := hv
  · cases v <;> first | rfl | cases hv
  · rfl

/-- Rules do not look at the store for values that can occur inside of a call. -/
theorem apply_of_good (hv : lib.Good v) {rule : Rule} {s : Store} (h : rule.apply s v = .ok w)
    (t : Store) : rule.apply t v = .ok w := by
  cases rule with
  | unary op =>
    simp only [Rule.apply, unary, truthy_eq_of_good hv t s] at h ⊢
    split at h <;> cases h <;> rfl
  | charOf =>
    simp only [Rule.apply, charOfCode] at h ⊢
    split at h
    · split at h
      · simp_all
      · cases h
    · cases h
  | codeOf =>
    simp only [Rule.apply, codeOfChar] at h ⊢
    split at h
    · split at h
      · simp_all
      · cases h
    · cases h
  | length =>
    obtain hv | ⟨f, rfl, -⟩ := hv
    · cases v <;> first | exact h | cases hv
    · exact h
  | advance op =>
    simp only [Rule.apply, advanced] at h ⊢
    split at h <;> cases h <;> rfl

end Values

/-- Two machines inside of calls with the same bindings, made on machines that may differ. -/
structure Paired (lib : Library) (b c : Machine) (frame frame' : Frame) (m n : Machine) : Prop where
  bindings : ∃ bindings, lib.GoodBindings bindings ∧ Inside b frame bindings m ∧
    Inside c frame' bindings n
  flags : m.flags = n.flags
  good : m.flags.returning → lib.Good m.flags.returnValue

/-- Whether an act depends on how many calls are active. -/
def Act.needsRoom {α : Type} : Act α → Bool
  | .callable .. => true
  | _ => false

namespace Paired

variable {lib : Library} {b c m n m' : Machine} {frame frame' : Frame}

/-- Only the flags change. -/
private theorem flag (h : Paired lib b c frame frame' m n) (flags : Flags)
    (hf : flags.returning → lib.Good flags.returnValue) :
    Paired lib b c frame frame' { m with flags := flags } { n with flags := flags } := by
  obtain ⟨⟨bindings, hg, hm, hn⟩, -, -⟩ := h
  exact ⟨⟨bindings, hg, ⟨hm.maxDepth, hm.arena, hm.scope, hm.frames, hm.store, hm.disk, hm.input,
    hm.output⟩, ⟨hn.maxDepth, hn.arena, hn.scope, hn.frames, hn.store, hn.disk, hn.input,
    hn.output⟩⟩, rfl, hf⟩

theorem symbol? (h : Paired lib b c frame frame' m n) (hb : lib.Fits b) (hc : lib.Fits c)
    {x : String} (hx : lib.Mentions x) :
    m.arena.symbol? m.scope x = n.arena.symbol? n.scope x ∧
      ∀ s, m.arena.symbol? m.scope x = some s → lib.Good s.value := by
  obtain ⟨⟨bindings, hg, hm, hn⟩, -, -⟩ := h
  rw [hm.symbol? hb hx, hn.symbol? hc hx]
  exact ⟨rfl, fun s hs => Library.good_sees hg hs⟩

private theorem define (h : Paired lib b c frame frame' m n) (x : String) {v : Value}
    (hv : lib.Good v) :
    Paired lib b c frame frame' { m with arena := m.arena.define m.scope x v }
      { n with arena := n.arena.define n.scope x v } := by
  obtain ⟨⟨bindings, hg, hm, hn⟩, hflags, hgood⟩ := h
  exact ⟨⟨_, hg.insert x hv, hm.define x v, hn.define x v⟩, hflags, hgood⟩

theorem act (h : Paired lib b c frame frame' m n) (hb : lib.Fits b) (hc : lib.Fits c) {α : Type}
    {a : Act α} (ha : a.Allowed lib.Allows) (ht : a.Takes lib.Good) {r : α}
    (hm : a.perform m = .ok r m')
    (hroom : a.needsRoom → n.frames.size < n.settings.maxDepth) :
    ∃ n', a.perform n = .ok r n' ∧ a.Gives lib.Good r ∧ Paired lib b c frame frame' m' n' := by
  cases a with
  | resolve x =>
    obtain ⟨hs, hg⟩ := h.symbol? hb hc ha
    simp only [Act.perform, Eval.resolve, Step.bind_apply, Step.get, Arena.lookup, ← hs] at hm ⊢
    cases hx : m.arena.symbol? m.scope x.name with
    | none => rw [hx] at hm; cases hm
    | some s =>
      rw [hx] at hm
      cases hm
      exact ⟨n, rfl, hg s hx, h⟩
  | apply rule v span =>
    simp only [Act.perform, applied, Step.bind_apply, Step.gets] at hm ⊢
    cases hr : rule.apply m.store v with
    | error e => rw [hr] at hm; cases hm
    | ok w =>
      rw [hr] at hm
      cases hm
      exact ⟨n, by rw [apply_of_good ht hr n.store]; rfl, .inl (isPlain_of_apply hr), h⟩
  | combine op left right span =>
    simp only [Act.perform] at hm ⊢
    cases hr : binary op left right with
    | error e => rw [hr] at hm; cases hm
    | ok w =>
      rw [hr] at hm
      cases hm
      exact ⟨n, rfl, .inl (isPlain_of_binary hr), h⟩
  | callable x given span =>
    obtain ⟨hs, hg⟩ := h.symbol? hb hc ha
    obtain ⟨rfl, hf, -, hlen⟩ := Act.callable_ok hm
    have hn : n.arena.function n.scope x.name = .ok r := by
      rw [← hf]
      simp only [Arena.function, hs]
    have hgood : lib.Good (.function r) := by
      obtain ⟨s, hs, hv⟩ := Arena.exists_of_function hf
      exact hv ▸ hg s hs
    refine ⟨n, ?_, ⟨hgood, hlen⟩, h⟩
    have hfull : ¬ n.settings.maxDepth ≤ n.frames.size := by
      have := hroom rfl
      omega
    simp [Act.perform, callable, Step.get, hn, ofExcept_mapError_ok, hfull, hlen]
  | signal jump =>
    cases hm
    refine ⟨{ n with flags := m.flags.raise jump }, ?_, trivial, h.flag _ ?_⟩
    · show Outcome.ok () { n with flags := n.flags.raise jump } = _
      rw [h.flags]
    · cases jump with
      | returning v => exact fun _ => ht
      | breaking | continuing => exact h.good
  | isRaised =>
    cases hm
    refine ⟨n, ?_, trivial, h⟩
    show Outcome.ok n.flags.isRaised n = .ok m.flags.isRaised n
    rw [h.flags]
  | endRound =>
    cases hm
    refine ⟨{ n with flags := m.flags.endRound.2 }, ?_, trivial, h.flag _ ?_⟩
    · show Outcome.ok n.flags.endRound.1 { n with flags := n.flags.endRound.2 } = _
      rw [h.flags]
    · unfold Flags.endRound
      split <;> exact h.good
  | define x v =>
    cases hm
    exact ⟨_, rfl, trivial, h.define x ht⟩
  | truthy v =>
    cases hm
    refine ⟨n, ?_, trivial, h⟩
    show Outcome.ok (n.store.truthy v) n = .ok (m.store.truthy v) n
    rw [truthy_eq_of_good ht n.store m.store]
  | rangeBound v span =>
    cases v with
    | int k => cases hm; exact ⟨n, rfl, trivial, h⟩
    | _ => cases hm
  | exhaust => cases hm
  | refuse node => cases hm
  | _ => simp [Act.Allowed, Library.Allows, Use.isPure] at ha

end Paired

end Kotoba.Machine
