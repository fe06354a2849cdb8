import Kotoba.Proofs.Machine.Ignore
import Kotoba.Proofs.Machine.Record

/-! The value that a return left behind. As long as no return is pending it makes no difference, for
a return brings a value of its own. -/
namespace Kotoba.Machine

open Step (Ignores)

namespace Flags

variable (f : Flags)

/-- The flags without the value of a return that is not pending. -/
def tidy : Flags := if f.returning then f else { f with returnValue := .nothing }

theorem isRaised_tidy : f.tidy.isRaised = f.isRaised := by
  obtain ⟨_, _, _ | _, _⟩ := f <;> rfl

theorem result_tidy : f.tidy.result = f.result := by
  obtain ⟨_, _, _ | _, _⟩ := f <;> rfl

theorem raise_tidy (jump : Jump) : f.tidy.raise jump = (f.raise jump).tidy := by
  obtain ⟨_, _, _ | _, _⟩ := f <;> cases jump <;> rfl

theorem endRound_tidy : f.tidy.endRound = (f.endRound.1, f.endRound.2.tidy) := by
  obtain ⟨_ | _, _, _ | _, _⟩ := f <;> rfl

theorem tidy_of_not_isRaised {f : Flags} (h : f.isRaised = false) : f.tidy = {} := by
  obtain ⟨_ | _, _ | _, _ | _, _⟩ := f <;> first | rfl | cases h

/-- A call sets the same aside. -/
theorem lower_tidy :
    (f.tidy.breaking, f.tidy.continuing, { f.tidy with breaking := false, continuing := false }) =
      (f.breaking, f.continuing, tidy { f with breaking := false, continuing := false }) := by
  obtain ⟨_, _, _ | _, _⟩ := f <;> rfl

theorem returned_tidy (v : Value) :
    (if f.tidy.returning then f.tidy.returnValue else v) =
      if f.returning then f.returnValue else v := by
  obtain ⟨_, _, _ | _, _⟩ := f <;> rfl

end Flags

/-- A machine without the value of a return that is not pending. -/
def tidy : Machine → Machine := altered id Flags.tidy

theorem tidy_of_not_isRaised {m : Machine} (h : m.flags.isRaised = false) :
    m.tidy = { m with flags := {} } :=
  congrArg (fun flags => { m with flags }) (Flags.tidy_of_not_isRaised h)

def Moment.tidy (moment : Moment) : Moment := { moment with machine := moment.machine.tidy }

section Calls

variable {α β : Type} {P : α → Prop} {Q : β → Prop}

/-- A recorded computation that comes to the same end without the value of a return that is not
pending, but for that value. -/
def Unmoved (P : α → Prop) (x : Recorded α) : Prop :=
  ∀ m, x m.tidy = ((x m).1.onState Machine.tidy, (x m).2.map Moment.tidy) ∧
    ∀ a m', (x m).1 = .ok a m' → P a

namespace Unmoved

theorem pure {a : α} (ha : P a) : Unmoved P (Pure.pure a) :=
  fun _ => ⟨rfl, fun _ _ h => by cases h; exact ha⟩

theorem bind {x : Recorded α} {f : α → Recorded β} (hx : Unmoved P x)
    (hf : ∀ a, P a → Unmoved Q (f a)) : Unmoved Q (x >>= f) := by
  intro m
  obtain ⟨hsame, hP⟩ := hx m
  rw [Recorded.bind_apply, Recorded.bind_apply, hsame]
  rcases hxm : x m with ⟨o, past⟩
  rw [hxm] at hP
  cases o with
  | ok a m' =>
    obtain ⟨hsame', hQ⟩ := hf a (hP a m' rfl) m'
    refine ⟨?_, hQ⟩
    simp only [Outcome.onState, hsame', List.map_append]
  | error e m' => exact ⟨rfl, by rintro _ _ ⟨⟩⟩
  | exhausted => exact ⟨rfl, by rintro _ _ ⟨⟩⟩

theorem lift {x : Eval α} (hx : Ignores Machine.tidy x) (hP : ∀ m a m', x m = .ok a m' → P a) :
    Unmoved P (recorded.lift x) :=
  fun m => ⟨congrArg (·, []) (hx m), hP m⟩

theorem note (n : Note) : Unmoved (fun _ => True) (recorded.note n) :=
  fun _ => ⟨rfl, fun _ _ _ => trivial⟩

end Unmoved

def unmoved : Bridge Recorded Recorded where
  Rel P x _ := Unmoved P x
  pure := Unmoved.pure
  bind := Unmoved.bind

private theorem ignores_tidy {x : Eval α} (hx : Ignores (altered id Flags.tidy) x) :
    Ignores Machine.tidy x := hx

/-- The limit on active calls is the same. -/
private theorem callable_tidy (callee : Ident) (given : Nat) (span : Span) :
    Ignores Machine.tidy (callable callee given span) := by
  refine .reads (fun _ => rfl) fun m => .bind (ignores_tidy (ignores_ofExcept _ _)) fun f => ?_
  by_cases hfull : m.settings.maxDepth ≤ m.frames.size
  · rw [if_pos hfull]
    exact .bind (.modify fun _ => rfl) fun _ => .fail _
  · rw [if_neg hfull]
    by_cases hgiven : given = f.params.length
    · rw [if_neg (not_not_intro hgiven)]
      exact .pure f
    · rw [if_pos hgiven]
      exact .fail _

private theorem endRound_tidy : Ignores Machine.tidy endRound :=
  .modifyGet fun m => congrArg
    (fun p : Bool × Flags => (p.1, ({ m with flags := p.2 } : Machine))) m.flags.endRound_tidy

private theorem act_tidy (a : Act α) : Ignores Machine.tidy a.perform := by
  cases a with
  | callable callee given span => exact callable_tidy callee given span
  | signal jump =>
    exact .modify fun m => congrArg (fun flags => { m with flags }) (m.flags.raise_tidy jump)
  | isRaised => exact .gets fun m => m.flags.isRaised_tidy
  | endRound => exact endRound_tidy
  | _ => exact ignores_tidy (ignores_act _ rfl)

private theorem unmoved_within {run : Option Body → Recorded Unit}
    (hr : ∀ body, Unmoved (fun _ => True) (run body)) (scope : Int) (body : Option Body) :
    Unmoved (fun _ => True) (recorded.within run scope body) := by
  have hin : Ignores Machine.tidy (Medium.swapIn scope) := by
    refine .modifyGet fun m => ?_
    exact congrArg (fun p : Bool × Bool × Flags =>
      ((⟨m.scope, p.1, p.2.1⟩ : Medium.Saved), { m with scope, flags := p.2.2 })) m.flags.lower_tidy
  have hout : ∀ saved, Ignores Machine.tidy (Medium.swapOut saved) := fun saved => by
    refine .modifyGet fun m => ?_
    exact congrArg (·, _) m.flags.result_tidy
  exact .bind (.lift hin fun _ _ _ _ => trivial) fun saved _ => .bind (hr body) fun _ _ =>
    .lift (hout saved) fun _ _ _ _ => trivial

private theorem unmoved_call {within : Int → Option Body → Recorded Value}
    (hw : ∀ scope body, Unmoved (fun _ => True) (within scope body)) (f : Function)
    (args : List Value) (span : Span) :
    Unmoved (fun _ => True) (recorded.call within f args span) :=
  unmoved.call (k := recorded) (l := recorded) (s := within)
    (fun hx => .lift hx.ignores fun _ _ _ _ => trivial) (fun n _ => .note n) hw f args span

theorem lockstep_unmoved (rounds depth : Nat) :
    Lockstep unmoved (recorded.host rounds depth) (recorded.host rounds depth) (fun _ => True)
      (fun _ => True) := by
  have hact : ∀ {α : Type} (a : Act α), Unmoved (a.Gives fun _ => True) (recorded.lift a.perform) :=
    fun a => .lift (act_tidy a) fun _ _ _ h => Act.gives_of_ok h
  induction depth with
  | zero =>
    exact .of_call (fun _ => trivial) (fun _ => trivial) (fun n _ => .note n)
      (fun a _ _ => hact a) fun f args span _ _ _ =>
        unmoved_call (unmoved_within fun _ => .lift .exhausted fun _ _ _ h => nomatch h) f args span
  | succ depth ih =>
    exact .of_call (fun _ => trivial) (fun _ => trivial) (fun n _ => .note n)
      (fun a _ _ => hact a) fun f args span _ _ _ =>
        unmoved_call (unmoved_within fun body => ih.body? rounds body fun _ _ => trivial) f args
          span

end Calls

theorem walk_tidy (rounds : Nat) (node : Node) (m : Machine) :
    walk rounds node m.tidy =
      ((walk rounds node m).1.onState Machine.tidy, (record rounds node m).map Moment.tidy) := by
  refine ((lockstep_unmoved rounds (m.settings.maxDepth + 1)).node (fun f => ?_) rounds node m).1
  rw [Host.defineFunction, Host.act, recorded.host_toMedium]
  exact .bind (.lift (act_tidy (.defineFunction f)) fun _ _ _ _ => trivial) fun _ _ => .note _

/-- Interpretation begins and ends without it. -/
theorem interpret_tidy (rounds : Nat) (node : Node) (m : Machine) :
    interpret rounds node m.tidy = interpret rounds node m := by
  rw [← concluded_walk, ← concluded_walk, walk_tidy]
  cases (walk rounds node m).1 with
  | ok v m' =>
    change conclude node.span v m'.tidy = conclude node.span v m'
    rw [conclude_lowered, conclude_lowered node.span v m']
    exact congrArg (conclude node.span · { m' with flags := {} }) (m'.flags.returned_tidy v)
  | error e m' => rfl
  | exhausted => rfl

end Kotoba.Machine
