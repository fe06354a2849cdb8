import Kotoba.Proofs.Machine.Finite
import Kotoba.Proofs.Machine.Ignore

/-! The limit on active calls. Nothing but the look-up of a function that is to be called takes
notice of it. So a run that is not stopped by the limit comes to the same end under a higher one. -/
namespace Kotoba

variable {α β : Type}

namespace Machine

open Step (Ignores)

/-- A machine with another limit on active calls. -/
def withDepth (d : Nat) (m : Machine) : Machine :=
  { m with settings := { m.settings with maxDepth := d } }

section Acts

variable {d : Nat}

/-- What takes notice neither of the limit nor of the flags takes none of the limit. -/
private theorem ignores_withDepth {x : Eval α} (hx : Ignores (altered (fun _ => d) id) x) :
    Ignores (withDepth d) x := hx

private theorem endRound_withDepth : Ignores (withDepth d) Machine.endRound :=
  .modifyGet fun _ => rfl

/-- Only where a function is looked up the limit is read. -/
private theorem act_withDepth (a : Act α) (h : a.isLookUp = false) :
    Ignores (withDepth d) a.perform := by
  cases a with
  | callable => cases h
  | signal jump => exact .modify fun _ => rfl
  | isRaised => exact .gets fun _ => rfl
  | endRound => exact endRound_withDepth
  | _ => exact ignores_withDepth (ignores_act _ rfl)

private theorem conclude_withDepth (span : Span) (v : Value) :
    Ignores (withDepth d) (conclude span v) := by
  refine .bind (.gets fun _ => rfl) fun flags => .bind (.modify fun _ => rfl) fun _ => ?_
  generalize (if flags.returning then flags.returnValue else v) = w
  cases w with
  | reference x => exact ignores_withDepth (ignores_resolve _)
  | _ => exact .pure _

end Acts

/-- Two computations of which the second comes to the same end as the first with `d` for the limit
on active calls, unless the limit stops the first or it gives up. They begin with `n` active calls,
and if they succeed, `k` calls are active and the result is as given. -/
def Rises (settings : Settings) (d n k : Nat) (P : α → Prop) (x y : Eval α) : Prop :=
  ∀ m, roster m = (settings, n) →
    match x m with
    | .ok a m' => y (m.withDepth d) = .ok a (m'.withDepth d) ∧ P a ∧ roster m' = (settings, k)
    | .error e m' => e.fault.stage = .recursion ∨ y (m.withDepth d) = .error e (m'.withDepth d)
    | .exhausted => True

namespace Rises

variable {settings : Settings} {d n k l : Nat} {P : α → Prop} {Q : β → Prop}

theorem pure {a : α} (ha : P a) : Rises settings d n n P (Pure.pure a) (Pure.pure a) :=
  fun _ hm => ⟨rfl, ha, hm⟩

theorem bind {x y : Eval α} {f g : α → Eval β} (hx : Rises settings d n k P x y)
    (hf : ∀ a, P a → Rises settings d k l Q (f a) (g a)) :
    Rises settings d n l Q (x >>= f) (y >>= g) := by
  intro m hm
  have hxm := hx m hm
  rw [Step.bind_apply, Step.bind_apply]
  generalize x m = o at hxm
  cases o with
  | ok a m' =>
    obtain ⟨hy, ha, hm'⟩ := hxm
    rw [hy]
    exact hf a ha m' hm'
  | error e m' =>
    obtain hstopped | hy := hxm
    · exact .inl hstopped
    · rw [hy]
      exact .inr rfl
  | exhausted => trivial

theorem mono {R : α → Prop} {x y : Eval α} (hx : Rises settings d n k P x y)
    (h : ∀ a, P a → R a) : Rises settings d n k R x y := by
  intro m hm
  have hxm := hx m hm
  generalize x m = o at hxm
  cases o with
  | ok a m' => exact ⟨hxm.1, h a hxm.2.1, hxm.2.2⟩
  | error e m' => exact hxm
  | exhausted => trivial

theorem of_ignores {x : Eval α} (hx : Step.Ignores (withDepth d) x)
    (hok : ∀ m a m', x m = .ok a m' → roster m = (settings, n) → P a ∧ roster m' = (settings, k)) :
    Rises settings d n k P x x := by
  intro m hm
  have hsame := hx m
  have hend := hok m
  generalize x m = o at hsame hend
  cases o with
  | ok a m' => exact ⟨hsame, hend a m' rfl hm⟩
  | error e m' => exact .inr hsame
  | exhausted => trivial

theorem of_keeps {x : Eval α} (hx : Step.Ignores (withDepth d) x) (hk : Step.Keeps roster x) :
    Rises settings d n n (fun _ => True) x x :=
  of_ignores hx fun _ _ _ h hm => ⟨trivial, (hk.of_ok h).trans hm⟩

private theorem around {x : Eval α} (hx : Around x) (hk : Step.Keeps roster x) :
    Rises settings d n n (fun _ => True) x x := of_keeps (ignores_withDepth hx.ignores) hk

theorem act {a : Act α} (h : a.isLookUp = false) :
    Rises settings d n n (a.Gives fun _ => True) a.perform a.perform :=
  of_ignores (act_withDepth a h) fun _ _ _ hok hm =>
    ⟨Act.gives_of_ok hok, (roster_of_ok hok).trans hm⟩

theorem note (note : Note) :
    Rises settings d n n (fun _ => True) (plain.note note) (plain.note note) := pure trivial

/-- A function that may be called under the limit may be called under a higher one. -/
theorem callable (hd : settings.maxDepth ≤ d) (callee : Ident) (given : Nat) (span : Span) :
    Rises settings d n n
      (fun f => n < settings.maxDepth ∧ (Act.callable callee given span).Gives (fun _ => True) f)
      (Machine.callable callee given span) (Machine.callable callee given span) := by
  intro m hm
  obtain ⟨hsettings, hframes⟩ := Prod.mk.inj hm
  have harena : (m.withDepth d).arena = m.arena := rfl
  have hscope : (m.withDepth d).scope = m.scope := rfl
  have hsize : (m.withDepth d).frames = m.frames := rfl
  have hlimit : (m.withDepth d).settings.maxDepth = d := rfl
  simp only [Machine.callable, Step.bind_apply, Step.get, harena, hscope, hsize, hlimit]
  cases m.arena.function m.scope callee.name with
  | error e => exact .inr rfl
  | ok f =>
    simp only [ofExcept_mapError_ok, Step.pure_apply]
    by_cases hfull : m.settings.maxDepth ≤ m.frames.size
    · rw [if_pos hfull]
      exact .inl rfl
    · have hroom : n < settings.maxDepth := by
        rw [hsettings, hframes] at hfull
        omega
      have hfull' : ¬ d ≤ m.frames.size := by omega
      rw [if_neg hfull, if_neg hfull']
      by_cases hgiven : given = f.params.length
      · rw [if_neg (not_not_intro hgiven)]
        exact ⟨rfl, ⟨hroom, trivial, hgiven.symm⟩, hm⟩
      · rw [if_pos hgiven]
        exact .inr rfl

private theorem enter (f : Function) (span : Span) :
    Rises settings d n (n + 1) (fun _ => True) (Machine.enter f span) (Machine.enter f span) := by
  refine of_ignores (ignores_withDepth (Around.enter f span).ignores) fun m scope m' h hm =>
    ⟨trivial, ?_⟩
  obtain ⟨hs, hn⟩ := Prod.mk.inj hm
  cases h
  simp [Machine.roster, hs, hn]

private theorem leave (scope : Int) :
    Rises settings d (n + 1) n (fun _ => True) (Machine.leave scope) (Machine.leave scope) := by
  refine of_ignores (ignores_withDepth (Around.leave scope).ignores) fun m a m' h hm =>
    ⟨trivial, ?_⟩
  obtain ⟨hs, hn⟩ := Prod.mk.inj hm
  cases h
  simp [Machine.roster, hs, hn]

private theorem within (scope : Int) {r s : Option Body → Eval Unit} {body : Option Body}
    (hr : Rises settings d n n (fun _ => True) (r body) (s body)) :
    Rises settings d n n (fun _ => True) (plain.within r scope body)
      (plain.within s scope body) := by
  have hin : Rises settings d n n (fun _ => True) (Medium.swapIn scope) (Medium.swapIn scope) :=
    of_keeps (.modifyGet fun _ => rfl) (.modifyGet fun _ => rfl)
  have hout : ∀ saved, Rises settings d n n (fun _ => True) (Medium.swapOut saved)
      (Medium.swapOut saved) := fun saved =>
    of_keeps (.modifyGet fun _ => rfl) (.modifyGet fun _ => rfl)
  exact bind hin fun saved _ => bind hr fun _ _ => hout saved

/-- A call takes no notice of the limit if the body of the function takes none. -/
theorem call {r s : Option Body → Eval Unit} {f : Function} (arguments : List Value) (span : Span)
    (hr : Rises settings d (n + 1) (n + 1) (fun _ => True) (r f.body) (s f.body)) :
    Rises settings d n n (fun _ => True) (plain.call (plain.within r) f arguments span)
      (plain.call (plain.within s) f arguments span) := by
  -- the scope of the call is entered, and its parameters are bound
  refine bind (enter f span) fun scope _ =>
    bind (around (.bindParams _ _ _ _) (steady_roster.bindParams _ _ _ _)) fun _ _ =>
    bind (note _) fun _ _ => ?_
  -- it is looked up whether the result is remembered
  refine bind (around (.key scope) (.gets _)) fun key _ =>
    bind (around .depth (.gets _)) fun depth _ =>
    bind (around (.recalled key) (steady_roster.recalled key)) fun found _ => ?_
  cases found with
  | some v =>
    exact bind (around (.remark _) (steady_roster.remark _)) fun _ _ =>
      bind (leave scope) fun _ _ => bind (note _) fun _ _ => pure trivial
  | none =>
    refine bind (around (.trace _) (steady_roster.trace _)) fun _ _ =>
      bind (within scope hr) fun v _ => bind (leave scope) fun _ _ => ?_
    exact bind (around (.remember key v) (steady_roster.remember key v)) fun _ _ =>
      bind (note _) fun _ _ => pure trivial

end Rises

/-- Computations with `n` active calls under a limit and under a higher one. -/
def rising (settings : Settings) (d n : Nat) : Bridge Eval Eval where
  Rel P x y := Rises settings d n n P x y
  pure := .pure
  bind := .bind

section Walks

variable {settings : Settings} {d n : Nat}

private theorem rising_act (hd : settings.maxDepth ≤ d) (a : Act α) :
    (rising settings d n).Rel (a.Gives fun _ => True) a.perform a.perform := by
  have hact : a.isLookUp = false →
      (rising settings d n).Rel (a.Gives fun _ => True) a.perform a.perform := Rises.act
  cases a with
  | callable callee given span =>
    exact Rises.mono (Rises.callable hd callee given span) fun _ hf => hf.2
  | _ => exact hact rfl

/-- A function is called only where there is room for it. -/
private theorem lockstep_of_room (hd : settings.maxDepth ≤ d)
    {r s : Function → List Value → Span → Eval Value}
    (hrs : ∀ f args span, n < settings.maxDepth →
      Rises settings d n n (fun _ => True) (r f args span) (s f args span)) :
    Lockstep (rising settings d n) { plain with call := r } { plain with call := s }
      (fun _ => True) (fun _ => True) where
  plain _ := trivial
  names _ := trivial
  note note _ := Rises.note note
  act a _ _ := rising_act hd a
  invoke callee given span _ _ _ hxy :=
    Rises.bind (Rises.callable hd callee given span) fun f hf => Rises.bind hxy fun args _ =>
      hrs f args span hf.1

/-- However deeply calls may be nested, if only as deeply as the limit allows. -/
theorem lockstep_rising (rounds : Nat) (hd : settings.maxDepth ≤ d) {depth depth' : Nat}
    (hdepth : settings.maxDepth ≤ n + depth) (hle : depth ≤ depth') :
    Lockstep (rising settings d n) (plain.host rounds depth) (plain.host rounds depth')
      (fun _ => True) (fun _ => True) := by
  induction depth generalizing n depth' with
  | zero =>
    have hfull : ¬ n < settings.maxDepth := by omega
    cases depth' <;> exact lockstep_of_room hd fun _ _ _ hroom => absurd hroom hfull
  | succ depth ih =>
    obtain ⟨depth', rfl⟩ : ∃ k, depth' = k + 1 := ⟨depth' - 1, by omega⟩
    refine lockstep_of_room hd fun f args span _ => Rises.call args span ?_
    have hinner := @ih (n + 1) depth' (by omega) (by omega)
    exact hinner.body? rounds f.body fun _ _ => trivial

private theorem rises_node (rounds : Nat) (hd : settings.maxDepth ≤ d) {depth depth' : Nat}
    (hdepth : settings.maxDepth ≤ n + depth) (hle : depth ≤ depth') (node : Node) :
    Rises settings d n n (fun _ => True) ((plain.host rounds depth).node rounds node)
      ((plain.host rounds depth').node rounds node) := by
  refine (lockstep_rising rounds hd hdepth hle).node (fun f => ?_) rounds node
  have hdefine : Rises settings d n n (fun _ => True) (Machine.defineFunction f)
      (Machine.defineFunction f) :=
    Rises.of_keeps (ignores_withDepth (ignores_defineFunction f)) (steady_roster.defineFunction f)
  cases depth <;> cases depth' <;> exact Rises.bind hdefine fun _ _ => Rises.note (.defines f)

end Walks

/-- An interpretation that is not stopped by the limit on active calls, and comes to an end, comes
to the same end under a higher limit. -/
theorem interpret_withDepth (rounds : Nat) (node : Node) {m : Machine} {d : Nat}
    (hd : m.settings.maxDepth ≤ d) {o : Outcome Machine Failure Value}
    (ho : interpret rounds node m = o) (hends : o ≠ .exhausted)
    (hstopped : ∀ e m', o = .error e m' → e.fault.stage ≠ .recursion) :
    interpret rounds node (m.withDepth d) = o.onState (withDepth d) := by
  have hrise := rises_node (n := m.frames.size) rounds hd
    (show m.settings.maxDepth ≤ m.frames.size + (m.settings.maxDepth + 1) by omega)
    (show m.settings.maxDepth + 1 ≤ d + 1 by omega) node m rfl
  rw [interpret_eq_walk] at ho ⊢
  have hlimit : (m.withDepth d).settings.maxDepth = d := rfl
  rw [hlimit]
  generalize (plain.host rounds (m.settings.maxDepth + 1)).node rounds node m = walked at ho hrise
  subst ho
  cases walked with
  | ok v m' =>
    rw [hrise.1]
    exact conclude_withDepth node.span v m'
  | error e m' =>
    have hy := hrise.resolve_left (hstopped e _ rfl)
    rw [hy]
    rfl
  | exhausted => exact absurd rfl hends

end Machine

namespace Session

open Machine (withDepth)

private theorem interpret_withDepth {rounds : Nat} {node : Option Node} {m m' : Machine} {d : Nat}
    (hd : m.settings.maxDepth ≤ d) {answer : Answer}
    (hrun : interpret rounds node m = (answer, m')) (hends : answer ≠ .endless)
    (hstopped : ∀ fault, answer = .failed fault → fault.stage ≠ .recursion) :
    interpret rounds node (m.withDepth d) = (answer, m'.withDepth d) := by
  cases node with
  | none =>
    cases hrun
    rfl
  | some node =>
    have hdeeper := Machine.interpret_withDepth rounds node hd rfl
    simp only [interpret] at hrun ⊢
    cases hend : Machine.interpret rounds node m with
    | ok v n =>
      rw [hend] at hrun hdeeper
      cases hrun
      rw [hdeeper (by rintro ⟨⟩) (by rintro _ _ ⟨⟩)]
      rfl
    | error e n =>
      rw [hend] at hrun hdeeper
      cases hrun
      have hstage : e.fault.stage ≠ .recursion := hstopped _ rfl
      rw [hdeeper (by rintro ⟨⟩) (by rintro _ _ ⟨⟩; exact hstage)]
      rfl
    | exhausted =>
      rw [hend] at hrun
      cases hrun
      exact absurd rfl hends

/-- A program that is not stopped by the limit on active calls comes to the same end under any
higher limit: with the same value or the same failure, and on a machine on which nothing but the
limit is different. So the output, the files, the bindings and what is remembered are the same. -/
theorem execute_withDepth (settings : Machine.Settings) (disk : Disk) (input : Console.Input)
    (output : Console.Output) (rounds : Nat) (r : Reading) (program : Bytes) {d : Nat}
    (hd : settings.maxDepth ≤ d) {answer : Answer} {m : Machine}
    (hrun : execute rounds r program { settings, disk, input, output } = (answer, m))
    (hends : answer ≠ .endless)
    (hstopped : ∀ fault, answer = .failed fault → fault.stage ≠ .recursion) :
    execute rounds r program
      { settings := { settings with maxDepth := d }, disk, input, output } =
        (answer, m.withDepth d) := by
  unfold execute run at hrun ⊢
  cases hparse : parseWhole r.limits program with
  | ok node s =>
    rw [hparse] at hrun
    exact interpret_withDepth (m := noteParse r s { settings, disk, input, output }) hd hrun hends
      hstopped
  | error fault s =>
    rw [hparse] at hrun
    cases hrun
    rfl
  | exhausted =>
    rw [hparse] at hrun
    cases hrun
    exact absurd rfl hends

/-- Whether a program fails, not for too many active calls, after so many hits and misses. -/
private def failsWith (hits misses : Nat) : Answer × Machine → Bool
  | (.failed fault, m) => fault.stage ≠ .recursion && m.hits == hits && m.misses == misses
  | _ => false

private theorem exists_of_failsWith {hits misses : Nat} {result : Answer × Machine}
    (h : failsWith hits misses result) : ∃ fault m, result = (.failed fault, m) ∧
      fault.stage ≠ .recursion ∧ m.hits = hits ∧ m.misses = misses := by
  obtain ⟨answer, m⟩ := result
  cases answer with
  | failed fault =>
    simp only [failsWith, Bool.and_eq_true, decide_eq_true_eq, beq_iff_eq] at h
    exact ⟨fault, m, rfl, h.1.1, h.1.2, h.2⟩
  | _ => cases h

/-- A function that calls itself three times, is then answered from memory, and divides by zero. -/
private def descent : Bytes :=
  "kawaii f(n) => \x7b nani (n < 1) \x7b modoru n; \x7d modoru f(n - 1); \x7d\n" ++
  "uWu_nyaa() => yomu(f(3), f(3) / 0);"

/-- Four active calls are enough for it. -/
theorem execute_withDepth_descent : ∃ fault m,
    fault.stage ≠ .recursion ∧ m.hits = 1 ∧ m.misses = 4 ∧
    execute 1 ⟨{}, false⟩ descent { settings := { maxDepth := 4 } } = (.failed fault, m) ∧
    execute 1 ⟨{}, false⟩ descent { settings := { maxDepth := 1000 } } =
      (.failed fault, m.withDepth 1000) := by
  have hfails : failsWith 1 4
      (execute 1 ⟨{}, false⟩ descent { settings := { maxDepth := 4 } }) := by
    decide +kernel
  obtain ⟨fault, m, hrun, hstage, hhits, hmisses⟩ := exists_of_failsWith hfails
  refine ⟨fault, m, hstage, hhits, hmisses, hrun, ?_⟩
  exact execute_withDepth { maxDepth := 4 } {} {} {} 1 ⟨{}, false⟩ descent (d := 1000) (by decide)
    hrun (by rintro ⟨⟩) (by rintro _ ⟨⟩; exact hstage)

end Session

end Kotoba
