import Kotoba.Proofs.Machine.Lockstep
import Kotoba.Proofs.Machine.Walk

/-! Evaluation with a record of what happened. The record of a run that fails, or that never ends,
reaches as far as the run came. -/
namespace Kotoba.Machine

/-- What was noticed, and the machine at that moment. -/
structure Moment where
  note : Note
  machine : Machine

/-- An evaluation that gives its record, oldest moment first. -/
def Recorded (α : Type) : Type := Machine → Outcome Machine Failure α × List Moment

/-- Whether no jump is pending at any of the moments. -/
def Jumpless (past : List Moment) : Prop := ∀ moment ∈ past, moment.machine.flags = {}

namespace Jumpless

variable {past more : List Moment}

theorem left (h : Jumpless (past ++ more)) : Jumpless past :=
  fun moment hm => h moment (List.mem_append_left _ hm)

theorem right (h : Jumpless (past ++ more)) : Jumpless more :=
  fun moment hm => h moment (List.mem_append_right _ hm)

end Jumpless

namespace Recorded

variable {α β : Type}

protected def pure (a : α) : Recorded α := fun m => (.ok a m, [])

protected def bind (x : Recorded α) (f : α → Recorded β) : Recorded β := fun m =>
  match x m with
  | (.ok a m, past) => ((f a m).1, past ++ (f a m).2)
  | (.error e m, past) => (.error e m, past)
  | (.exhausted, past) => (.exhausted, past)

instance : Monad Recorded where
  pure := Recorded.pure
  bind := Recorded.bind

@[simp] theorem pure_apply (a : α) (m : Machine) : (pure a : Recorded α) m = (.ok a m, []) := rfl

@[simp] theorem bind_apply (x : Recorded α) (f : α → Recorded β) (m : Machine) :
    (x >>= f) m = match x m with
      | (.ok a m, past) => ((f a m).1, past ++ (f a m).2)
      | (.error e m, past) => (.error e m, past)
      | (.exhausted, past) => (.exhausted, past) := rfl

theorem bind_ok {x : Recorded α} {f : α → Recorded β} {m m' : Machine} {b : β} {t : List Moment}
    (h : (x >>= f) m = (.ok b m', t)) :
    ∃ a m₁ t₁ t₂, x m = (.ok a m₁, t₁) ∧ f a m₁ = (.ok b m', t₂) ∧ t = t₁ ++ t₂ := by
  rw [bind_apply] at h
  generalize x m = result at h ⊢
  rcases result with ⟨_ | _ | _, past⟩
  case ok a m₁ =>
    obtain ⟨h₁, rfl⟩ := Prod.mk.inj h
    exact ⟨a, m₁, past, (f a m₁).2, rfl, Prod.ext h₁ rfl, rfl⟩
  case error e m₁ => cases (Prod.mk.inj h).1
  case exhausted => cases (Prod.mk.inj h).1

theorem bind_assoc (x : Recorded α) (f : α → Recorded β) {γ : Type} (g : β → Recorded γ) :
    x >>= f >>= g = x >>= fun a => f a >>= g := by
  funext m
  simp only [bind_apply]
  rcases x m with ⟨_ | _ | _, past⟩ <;> try rfl
  case ok a m' =>
    dsimp only
    rcases f a m' with ⟨_ | _ | _, more⟩ <;> simp

end Recorded

/-- The medium in which everything that is noticed is put on record. -/
def recorded : Medium Recorded where
  lift x := fun m => (x m, [])
  note n := fun m => (.ok () m, [⟨n, m⟩])

theorem lift_bind {α β : Type} (x : Eval α) (f : α → Recorded β) (m : Machine) :
    (recorded.lift x >>= f) m = match x m with
      | .ok a m' => f a m'
      | .error e m' => (.error e m', [])
      | .exhausted => (.exhausted, []) := by
  rw [Recorded.bind_apply]
  simp only [recorded]
  cases x m <;> rfl

theorem note_bind {β : Type} (n : Note) (f : Unit → Recorded β) (m : Machine) :
    (recorded.note n >>= f) m = ((f () m).1, ⟨n, m⟩ :: (f () m).2) := rfl

theorem lift_bind_ok {α β : Type} {x : Eval α} {f : α → Recorded β} {m m' : Machine} {b : β}
    {t : List Moment} (h : (recorded.lift x >>= f) m = (.ok b m', t)) :
    ∃ a m₁, x m = .ok a m₁ ∧ f a m₁ = (.ok b m', t) := by
  obtain ⟨a, m₁, t₁, t₂, h₁, h₂, rfl⟩ := Recorded.bind_ok h
  obtain ⟨hx, rfl⟩ := Prod.mk.inj h₁
  exact ⟨a, m₁, hx, h₂⟩

theorem note_bind_ok {β : Type} {n : Note} {f : Unit → Recorded β} {m m' : Machine} {b : β}
    {t : List Moment} (h : (recorded.note n >>= f) m = (.ok b m', t)) :
    ∃ t', f () m = (.ok b m', t') ∧ t = ⟨n, m⟩ :: t' := by
  obtain ⟨a, m₁, t₁, t₂, h₁, h₂, rfl⟩ := Recorded.bind_ok h
  cases h₁
  exact ⟨t₂, h₂, rfl⟩

/-- The evaluation of a tree as `interpret` does it, with its record. -/
def walk (rounds : Nat) (node : Node) : Recorded Value := fun m =>
  (recorded.host rounds (m.settings.maxDepth + 1)).node rounds node m

/-- That evaluation, if acts were done in another way. -/
def walkBy (perform : (α : Type) → Act α → Recorded α) (rounds : Nat) (node : Node) :
    Recorded Value := fun m =>
  ({ recorded with perform := perform _ }.host rounds (m.settings.maxDepth + 1)).node rounds node m

/-- What happens while a tree is interpreted. -/
def record (rounds : Nat) (node : Node) (m : Machine) : List Moment := (walk rounds node m).2

/-- A recorded evaluation and one without a record that end alike. -/
def Erases {α : Type} (P : α → Prop) (x : Recorded α) (y : Eval α) : Prop :=
  ∀ m, (x m).1 = y m ∧ ∀ a m', y m = .ok a m' → P a

def erasure : Bridge Recorded Eval where
  Rel := Erases
  pure {α P a} ha := fun m => ⟨rfl, fun b m' h => by cases h; exact ha⟩
  bind {α β P Q x y f g} hx hf := fun m => by
    obtain ⟨h, hP⟩ := hx m
    simp only [Recorded.bind_apply, Step.bind_apply]
    rw [← h] at hP ⊢
    rcases hxm : x m with ⟨_ | _ | _, past⟩
    case ok a m' => exact hf a (hP a m' (by rw [hxm])) m'
    case error e m' => exact ⟨rfl, fun _ _ h => nomatch h⟩
    case exhausted => exact ⟨rfl, fun _ _ h => nomatch h⟩

theorem erases_lift {α : Type} (x : Eval α) : Erases (fun _ => True) (recorded.lift x) x :=
  fun _ => ⟨rfl, fun _ _ _ => trivial⟩

theorem erases_note (n : Note) : Erases (fun _ => True) (recorded.note n) (plain.note n) :=
  fun _ => ⟨rfl, fun _ _ _ => trivial⟩

theorem erases_call {r : Int → Option Body → Recorded Value} {s : Int → Option Body → Eval Value}
    (hw : ∀ scope body, Erases (fun _ => True) (r scope body) (s scope body)) (f : Function)
    (args : List Value) (span : Span) :
    Erases (fun _ => True) (recorded.call r f args span) (plain.call s f args span) := by
  exact erasure.call (k := recorded) (l := plain) (fun _ => erases_lift _)
    (fun n _ => erases_note n) hw f args span

private theorem erases_within {r : Option Body → Recorded Unit} {s : Option Body → Eval Unit}
    (hr : ∀ body, Erases (fun _ => True) (r body) (s body)) (scope : Int) (body : Option Body) :
    Erases (fun _ => True) (recorded.within r scope body) (plain.within s scope body) :=
  erasure.bind (erases_lift _) fun _ _ => erasure.bind (hr body) fun _ _ => erases_lift _

private theorem erases_gives {α : Type} (a : Act α) :
    Erases (a.Gives fun _ => True) (recorded.lift a.perform) a.perform :=
  fun _ => ⟨rfl, fun _ _ h => Act.gives_of_ok h⟩

theorem lockstep_erasure (rounds depth : Nat) :
    Lockstep erasure (recorded.host rounds depth) (plain.host rounds depth) (fun _ => True)
      (fun _ => True) := by
  induction depth with
  | zero =>
    exact .of_call (fun _ => trivial) (fun _ => trivial) (fun n _ => erases_note n)
      (fun a _ _ => erases_gives a) fun f args span _ _ _ =>
        erases_call (erases_within fun _ => erases_lift _) f args span
  | succ depth ih =>
    exact .of_call (fun _ => trivial) (fun _ => trivial) (fun n _ => erases_note n)
      (fun a _ _ => erases_gives a) fun f args span _ _ _ =>
        erases_call (erases_within fun body => ih.body? rounds body fun _ _ => trivial) f args span

/-- The record aside, a recorded walk is the evaluation. -/
theorem concluded_walk (rounds : Nat) (node : Node) (m : Machine) :
    concluded node.span (walk rounds node m).1 = interpret rounds node m := by
  rw [interpret_eq_walk]
  have h := (lockstep_erasure rounds (m.settings.maxDepth + 1)).node
    (fun f => erasure.bind (erases_lift _) fun _ _ => erases_note _) rounds node m
  rw [walk, h.1]

end Kotoba.Machine
