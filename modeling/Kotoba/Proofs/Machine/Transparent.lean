import Kotoba.Proofs.Machine.Jump
import Kotoba.Proofs.Machine.Stocked
import Kotoba.Proofs.Syntax.Names

/-! Whether results are remembered makes no difference to programs whose functions are pure and are
called with scalars. -/
namespace Kotoba

/-- Whether the functions of a program make use of nothing but names, and these are names that its
main body does not bind. -/
structure Program.IsPure (p : Program) : Prop where
  uses : ∀ f ∈ p.functions, ∀ u ∈ Body.uses? f.body, u.isPure
  apart : ∀ f ∈ p.functions, ∀ x, .mentions x ∈ Body.uses? f.body → .binds x ∉ Body.uses? p.body

instance (p : Program) : Decidable p.IsPure :=
  decidable_of_iff
    ((∀ f ∈ p.functions, ∀ u ∈ Body.uses? f.body, u.isPure) ∧
      ∀ f ∈ p.functions, ∀ u ∈ Body.uses? f.body, ∀ v ∈ Body.uses? p.body, u.clashes v = false)
    ⟨fun h => ⟨h.1, fun f hf x hx hb => by simpa [Use.clashes] using h.2 f hf _ hx _ hb⟩,
      fun h => ⟨h.uses, fun f hf u hu v hv => by
        cases u <;> cases v <;> simp only [Use.clashes, decide_eq_false_iff_not]
        rintro rfl
        exact h.apart f hf _ hu hv⟩⟩

namespace Machine

/-- The function that the last definition of a name introduces, `old` if there is none. -/
def latest : List FuncDef → String → Option Function → Option Function
  | [], _, old => old
  | d :: rest, x, old => latest rest x (if d.name.name = x then some (.ofDef d) else old)

theorem latest_eq_some {ds : List FuncDef} {x : String} {old : Option Function} {f : Function}
    (h : latest ds x old = some f) :
    (∃ d ∈ ds, f = .ofDef d ∧ d.name.name = x) ∨ old = some f := by
  induction ds generalizing old with
  | nil => exact .inr h
  | cons d rest ih =>
    obtain ⟨e, he, hf⟩ | h := ih h
    · exact .inl ⟨e, List.mem_cons_of_mem _ he, hf⟩
    · split at h
      · next hx => exact .inl ⟨d, List.mem_cons_self, (Option.some.inj h).symm, hx⟩
      · exact .inr h

/-- The functions of a program. -/
def library (p : Program) (h : p.IsPure) : Library where
  function? x := latest p.functions x none
  Mentions x := ∃ d ∈ p.functions, .mentions x ∈ Body.uses? d.body
  named {x f} hf := by
    obtain ⟨d, -, rfl, hx⟩ | hf := latest_eq_some hf
    · exact hx
    · cases hf
  pure {x f} hf u hu := by
    obtain ⟨d, hd, rfl, -⟩ | hf := latest_eq_some hf
    · cases u with
      | mentions y => exact ⟨d, hd, hu⟩
      | _ => exact h.uses d hd _ hu
    · cases hf

/-- A machine on which functions have been defined and nothing else was done, and its twin. -/
structure Ready (known : String → Option Function) (m n : Machine) : Prop where
  twin : Twin m n
  scope : m.scope = Arena.global
  rooted : m.arena.IsRooted
  single : m.arena.scopes.size = 1
  names : ∀ x, m.arena.localSymbol? Arena.global x = (known x).map fun f => .of (.function f)
  arrays : m.store.arrays = #[]
  flags : m.flags = {}
  forgetful : Forgetful m
  empty : n.memory.entries = []

private theorem defineFunction_eq (d : FuncDef) (m : Machine) :
    ∃ log, defineFunction d m = .ok () { m with
      log := log, memory := m.memory.clear,
      arena := m.arena.define m.scope d.name.name (.function (.ofDef d)) } := by
  obtain ⟨log, h⟩ := trace_eq (Bytes.ofString s!"define {d.name.name}/{d.params.length}") m
  refine ⟨log, ?_⟩
  simp only [defineFunction, Step.bind_apply]
  rw [h]
  rfl

private theorem Ready.define {known : String → Option Function} {m n : Machine}
    (h : Ready known m n) (d : FuncDef) (log log' : List Log.Line) :
    Ready (fun x => if d.name.name = x then some (.ofDef d) else known x)
      { m with
        log := log, memory := m.memory.clear,
        arena := m.arena.define m.scope d.name.name (.function (.ofDef d)) }
      { n with
        log := log', memory := n.memory.clear,
        arena := n.arena.define n.scope d.name.name (.function (.ofDef d)) } where
  twin := { h.twin with arena := by simp only [h.twin.arena, h.twin.scope] }
  scope := h.scope
  rooted := h.rooted.define _ _ _
  single := by
    simp only [Arena.define, Arena.insert]
    split
    · exact h.single
    · simpa using h.single
  names x := by
    simp only [h.scope]
    rw [Arena.localSymbol?_define_global h.rooted, h.names x]
    by_cases hx : x = d.name.name
    · rw [if_pos hx, if_pos hx.symm]
      rfl
    · rw [if_neg hx, if_neg fun heq => hx heq.symm]
  arrays := h.arrays
  flags := h.flags
  forgetful := by
    show m.memory.clear = _
    rw [h.forgetful]
    rfl
  empty := rfl

/-- Definitions come to the same on twins. -/
private theorem definitions_ready (rounds depth : Nat) {ds : List FuncDef}
    {known : String → Option Function} {m n m' : Machine} {t : List Moment} {u : Unit}
    (h : Ready known m n)
    (hx : ds.forM (recorded.host rounds depth).defineFunction m = (.ok u m', t)) :
    ∃ n', ds.forM (plain.host rounds depth).defineFunction n = .ok () n' ∧
      Ready (fun x => latest ds x (known x)) m' n' := by
  induction ds generalizing known m n t with
  | nil =>
    cases hx
    exact ⟨n, rfl, h⟩
  | cons d rest ih =>
    obtain ⟨_, m₁, t₁, t₂, hd, hrest, rfl⟩ := Recorded.bind_ok hx
    rw [Host.defineFunction, Host.act, recorded.host_toMedium] at hd
    obtain ⟨_, m₂, hdefine, hnote⟩ := lift_bind_ok hd
    cases hnote
    obtain ⟨log, hm⟩ := defineFunction_eq d m
    obtain ⟨log', hn⟩ := defineFunction_eq d n
    rw [Act.perform, hm] at hdefine
    cases hdefine
    obtain ⟨n', hn', hready⟩ := ih (h.define d log log') hrest
    refine ⟨n', ?_, hready⟩
    have hdone : (plain.host rounds depth).defineFunction d = defineFunction d := by
      rw [Host.defineFunction, Host.act, plain.host_toMedium]
      exact bind_pure_unit
    show ((plain.host rounds depth).defineFunction d >>= fun _ => _) n = _
    rw [Step.bind_apply, hdone, hn]
    exact hn'

/-- A machine that is about to run its first tree. -/
def fresh (settings : Settings) (disk : Disk) (input : Console.Input) (output : Console.Output) :
    Machine := { settings, disk, input, output }

private theorem ready_fresh (settings : Settings) (recallSize : Nat) (disk : Disk)
    (input : Console.Input) (output : Console.Output) :
    Ready (fun _ => none) (fresh { settings with recallSize := 0 } disk input output)
      (fresh { settings with recallSize := recallSize } disk input output) where
  twin := ⟨rfl, rfl, rfl, rfl, rfl, rfl, rfl, rfl, rfl⟩
  scope := rfl
  rooted := ⟨_, rfl, rfl⟩
  single := rfl
  names _ := rfl
  arrays := rfl
  flags := rfl
  forgetful := rfl
  empty := rfl

private theorem Ready.sound {p : Program} (hp : p.IsPure) {m n : Machine}
    (h : Ready (fun x => latest p.functions x none) m n) :
    Sound (library p hp) Arena.global m where
  scope := h.scope
  fits := ⟨h.rooted, fun x _ => h.names x⟩
  bindings id x s hs := by
    have hglobal : id = Arena.global := by
      cases id with
      | negSucc k => cases hs
      | ofNat k =>
        simp only [Arena.localSymbol?, Arena.scope?, Option.bind_eq_some_iff] at hs
        obtain ⟨t, ht, -⟩ := hs
        have hk := (Array.getElem?_eq_some_iff.mp ht).1
        have hsize := h.single
        show Int.ofNat k = 0
        simp
        omega
    subst hglobal
    rw [h.names x, Option.map_eq_some_iff] at hs
    obtain ⟨f, hf, rfl⟩ := hs
    rintro g hg
    cases hg
    have hholds : (library p hp).function? x = some f := hf
    exact Library.holds_of_function? hholds
  elements array v hv := by
    simp [Store.elements, h.arrays] at hv
  returned hr := by
    rw [h.flags] at hr
    cases hr

/-- A program with pure functions runs the same on a machine that remembers results as on one that
does not. -/
theorem walk_transparent {p : Program} (hp : p.IsPure)
    (hnames : ∀ f ∈ p.functions, '\x00' ∉ f.name.name.toList) {settings : Settings} {disk : Disk}
    {input : Console.Input} {output : Console.Output} {rounds : Nat} (recallSize : Nat) {v : Value}
    {m : Machine}
    (hrun : (walk rounds (.program p)
      (fresh { settings with recallSize := 0 } disk input output)).1 = .ok v m)
    (hscalar : ScalarCalls (record rounds (.program p)
      (fresh { settings with recallSize := 0 } disk input output)))
    (hdistinct : NoCollision (record rounds (.program p)
      (fresh { settings with recallSize := 0 } disk input output))) :
    ∃ n, (plain.host rounds (settings.maxDepth + 1)).node rounds (.program p)
      (fresh { settings with recallSize := recallSize } disk input output) = .ok v n ∧
      Twin m n := by
  generalize hT : record rounds (.program p)
    (fresh { settings with recallSize := 0 } disk input output) = T at hscalar hdistinct
  have hwalk : walk rounds (.program p)
      (fresh { settings with recallSize := 0 } disk input output) = (.ok v m, T) :=
    Prod.ext hrun hT
  obtain ⟨_, m₁, t₁, t₂, hdefs, hrest, hT'⟩ := Recorded.bind_ok hwalk
  obtain ⟨_, m₂, t₃, t₄, hbody, hend, rfl⟩ := Recorded.bind_ok hrest
  cases hend
  obtain ⟨n₁, hn₁, hready⟩ := definitions_ready rounds (settings.maxDepth + 1)
    (ready_fresh settings recallSize disk input output) hdefs
  have hassumed : Assumed (library p hp) T := by
    refine ⟨fun {x f} hf => ?_, hscalar, hdistinct, hT ▸ jumpless_record rounds _ rfl⟩
    obtain ⟨d, hd, -, rfl⟩ | hf := latest_eq_some hf
    · exact hnames d hd
    · cases hf
  have hfree : ∀ u ∈ Body.uses? p.body, (library p hp).Frees Arena.global u := by
    intro u hu
    cases u with
    | binds x =>
      rintro - ⟨d, hd, hx⟩
      exact hp.apart d hd x hx hu
    | _ => trivial
  have hstocked : Stocked (library p hp) rounds T n₁ := by
    rw [Stocked, hready.empty]
    intro entry he
    cases he
  obtain ⟨n₂, hn₂, -, hclose, -, -⟩ := body_follows hassumed (settings.maxDepth + 1) p.body hfree
    m₁ n₁ ⟨hready.twin, hready.sound hp⟩ hready.forgetful hstocked hbody
    fun moment h => by rw [hT']; simp [h]
  refine ⟨n₂, ?_, hclose.twin⟩
  simp only [Host.node, Step.bind_apply, hn₁, hn₂]
  rfl

/-- What is left to do at the end comes to the same on twins. -/
private theorem twin_conclude {m n : Machine} (h : Twin m n) {span : Span} {v w : Value}
    {m' : Machine} (hm : conclude span v m = .ok w m') :
    ∃ n', conclude span v n = .ok w n' ∧ Twin m' n' := by
  have htwin : Twin { m with flags := {} } { n with flags := {} } := { h with flags := rfl }
  simp only [conclude, Step.bind_apply, Step.gets, Step.modify, ← h.flags] at hm ⊢
  generalize (if m.flags.returning then m.flags.returnValue else v) = u at hm ⊢
  cases u with
  | reference x =>
    simp only [Eval.resolve, Step.bind_apply, Step.get, Arena.lookup, ← h.arena, ← h.scope] at hm ⊢
    cases hx : m.arena.symbol? m.scope x with
    | some s =>
      rw [hx] at hm
      cases hm
      exact ⟨_, rfl, { htwin with arena := rfl, scope := rfl }⟩
    | none =>
      rw [hx] at hm
      cases hm
  | _ =>
    cases hm
    exact ⟨_, rfl, htwin⟩

/-- Whether results are remembered, and how many, makes no difference to a program that was parsed,
if its functions are pure, all arguments are scalars and no two calls share a key by accident. -/
theorem interpret_transparent (limits : Token.Limits) (text : Bytes) (p : Program)
    (s : Syntax.State) (hparse : Syntax.parseProgram limits text = .ok p s) (hp : p.IsPure)
    (settings : Settings) (disk : Disk) (input : Console.Input) (output : Console.Output)
    (rounds recallSize : Nat) (v : Value) (m : Machine)
    (hrun : interpret rounds (.program p)
      (fresh { settings with recallSize := 0 } disk input output) = .ok v m)
    (hscalar : ScalarCalls (record rounds (.program p)
      (fresh { settings with recallSize := 0 } disk input output)))
    (hdistinct : NoCollision (record rounds (.program p)
      (fresh { settings with recallSize := 0 } disk input output))) :
    ∃ n, interpret rounds (.program p)
      (fresh { settings with recallSize := recallSize } disk input output) = .ok v n ∧
      Twin m n := by
  have hnames : ∀ f ∈ p.functions, '\x00' ∉ f.name.name.toList := fun f hf h =>
    absurd (Syntax.letters_of_parseProgram hparse f hf _ h) (by decide)
  rw [← concluded_walk] at hrun
  cases hwalk : (walk rounds (.program p)
      (fresh { settings with recallSize := 0 } disk input output)).1 with
  | ok w m₁ =>
    rw [hwalk] at hrun
    obtain ⟨n₁, hn₁, htwin⟩ := walk_transparent hp hnames recallSize hwalk hscalar hdistinct
    obtain ⟨n, hn, htwin⟩ := twin_conclude htwin hrun
    refine ⟨n, ?_, htwin⟩
    rw [interpret_eq_walk]
    exact (congrArg (concluded _) hn₁).trans hn
  | error failure m₁ =>
    rw [hwalk] at hrun
    cases hrun
  | exhausted =>
    rw [hwalk] at hrun
    cases hrun

/-- A function that is called twice with one argument. -/
theorem interpret_transparent_twice :
    let text : Bytes := "kawaii f(x) => modoru x + x; uWu_nyaa() => yomu(f(1), f(2), f(1));"
    ∃ p s v m n, Syntax.parseProgram {} text = .ok p s ∧
      interpret 1 (.program p) (fresh { recallSize := 0 } {} {} {}) = .ok v m ∧
      interpret 1 (.program p) (fresh { recallSize := 10 } {} {} {}) = .ok v n ∧
      Twin m n ∧ m.hits = 0 ∧ n.hits = 1 := by
  intro text
  have hcheck : (match Syntax.parseProgram {} text with
      | .ok p _ =>
        decide (p.IsPure ∧
          ScalarCalls (record 1 (.program p) (fresh { recallSize := 0 } {} {} {})) ∧
          NoCollision (record 1 (.program p) (fresh { recallSize := 0 } {} {} {}))) &&
        match interpret 1 (.program p) (fresh { recallSize := 0 } {} {} {}),
          interpret 1 (.program p) (fresh { recallSize := 10 } {} {} {}) with
        | .ok _ m, .ok _ n => decide (m.hits = 0 ∧ n.hits = 1)
        | _, _ => false
      | _ => false) = true := by decide +kernel
  cases hparse : Syntax.parseProgram {} text with
  | ok p s =>
    rw [hparse, Bool.and_eq_true, decide_eq_true_eq] at hcheck
    obtain ⟨⟨hp, hscalar, hdistinct⟩, hhits⟩ := hcheck
    cases hm : interpret 1 (.program p) (fresh { recallSize := 0 } {} {} {}) with
    | ok v m =>
      obtain ⟨n, hn, htwin⟩ := interpret_transparent {} text p s hparse hp {} {} {} {} 1 10 v m hm
        hscalar hdistinct
      rw [hm] at hhits
      rw [show interpret 1 (.program p) (fresh { recallSize := 10 } {} {} {}) = .ok v n from hn,
        decide_eq_true_eq] at hhits
      exact ⟨p, s, v, m, n, rfl, hm, hn, htwin, hhits⟩
    | _ =>
      rw [hm] at hhits
      cases hhits
  | _ =>
    rw [hparse] at hcheck
    cases hcheck

end Machine

end Kotoba
