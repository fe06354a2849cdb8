import Kotoba.Proofs.Console.Feed
import Kotoba.Proofs.Machine.Served

/-! Evaluations that read the input. Along the record of an evaluation the input is as it was, but
for the input expressions: each takes the next line as a whole for its value. -/
namespace Kotoba

namespace Machine

open Console (Fed Taken)
open Step (Keeps)

/-- The input at a moment, with the line that has just become the value of an input expression. -/
def Moment.sight (moment : Moment) : Option Taken × Console.Input :=
  (match moment.note with
    | .ends (.input ..) (.string text) => some (.value text)
    | _ => none, moment.machine.input)

/-- Only the value of an input is a line. -/
theorem sight_of_not_isInput {n : Note} (hn : n.isInput = false) (m : Machine) :
    (⟨n, m⟩ : Moment).sight = (none, m.input) := by
  unfold Moment.sight
  split
  · next heq =>
    cases heq
    cases hn
  · rfl

/-- An outcome as in `P` that comes with a record of all lines that were taken from an input. -/
def Feeds {α : Type} (P : α → Prop) (input : Console.Input) :
    Outcome Machine Failure α × List Moment → Prop
  | (.ok a m, record) => P a ∧ Fed input (record.map Moment.sight) m.input
  | (.error _ m, record) => Fed input (record.map Moment.sight) m.input
  | (.exhausted, record) => ∃ rest, Fed input (record.map Moment.sight) rest

/-- Computations with a record of all lines that they take from an input which does not fail. -/
def Feeding {α : Type} (P : α → Prop) (x : Recorded α) : Prop :=
  ∀ m, m.input.failure = none → Feeds P m.input (x m)

namespace Feeding

variable {α β : Type} {P : α → Prop} {Q : β → Prop}

theorem pure {a : α} (ha : P a) : Feeding P (Pure.pure a) := fun _ _ => ⟨ha, .done⟩

theorem bind {x : Recorded α} {f : α → Recorded β} (hx : Feeding P x)
    (hf : ∀ a, P a → Feeding Q (f a)) : Feeding Q (x >>= f) := by
  intro m hm
  have hxm := hx m hm
  rw [Recorded.bind_apply]
  generalize x m = result at hxm ⊢
  rcases result with ⟨_ | _ | _, record⟩
  case ok a m₁ =>
    obtain ⟨ha, hfed⟩ := hxm
    have hfm := hf a ha m₁ (hfed.failure_eq hm)
    dsimp only
    generalize f a m₁ = result at hfm ⊢
    rcases result with ⟨_ | _ | _, more⟩ <;> simp only [Feeds, List.map_append] at hfm ⊢
    case ok b m' => exact ⟨hfm.1, hfed.append hfm.2⟩
    case error e m' => exact hfed.append hfm
    case exhausted =>
      obtain ⟨rest, hfm⟩ := hfm
      exact ⟨rest, hfed.append hfm⟩
  case error e m' => exact hxm
  case exhausted => exact hxm

/-- A step that does not touch the input. -/
theorem lift {x : Eval α} (hx : Keeps (·.input) x) (hP : ∀ m a m', x m = .ok a m' → P a) :
    Feeding P (recorded.lift x) := by
  intro m _
  have hm := hx m
  simp only [recorded]
  cases hxm : x m with
  | ok a m' =>
    simp only [hxm] at hm
    refine ⟨hP m a m' hxm, ?_⟩
    rw [hm]
    exact .done
  | error e m' =>
    simp only [hxm] at hm
    rw [Feeds, hm]
    exact .done
  | exhausted => exact ⟨_, .done⟩

theorem note {n : Note} (hn : n.isInput = false) : Feeding (fun _ => True) (recorded.note n) := by
  intro m _
  refine ⟨trivial, ?_⟩
  rw [List.map_singleton, sight_of_not_isInput hn]
  exact .idle .done

end Feeding

def feeding : Bridge Recorded Recorded where
  Rel P x _ := Feeding P x
  pure ha := Feeding.pure ha
  bind hx hf := Feeding.bind hx hf

theorem offline_input : Offline (·.input) := by constructor <;> intros <;> rfl

private theorem keeps_input {α : Type} {a : Act α} (h : a.isInput = false) :
    Keeps (·.input) a.perform := by
  cases a with
  | callable x given span => exact keeps_callable (fun _ _ => rfl) x given span
  | signal jump => exact keeps_signal (fun _ _ => rfl) jump
  | endRound => exact keeps_endRound fun _ _ => rfl
  | defineFunction f =>
    exact Keeps.bind (offline_input.trace _) fun _ => Keeps.bind (Keeps.modify fun _ => rfl)
      fun _ => Keeps.modify fun _ => rfl
  | _ => exact offline_input.act _ rfl h fun _ _ _ => Keeps.modify fun _ => rfl

private theorem feeding_act {α : Type} (a : Act α) (h : a.isInput = false) :
    Feeding (a.Gives fun _ => True) (recorded.lift a.perform) :=
  .lift (keeps_input h) fun _ _ _ ha => Act.gives_of_ok ha

/-- The line that is read is at once the value of the input expression. -/
private theorem feeding_line (prompt : Option Prompt) (span : Span) :
    Feeding (fun _ => True) (do
      let text ← recorded.lift (Eval.readInput span)
      recorded.note (.ends (.input prompt span) (.string text))
      pure (Value.string text)) := by
  intro m hm
  obtain ⟨line, rest, htake, -⟩ := Console.Input.takeLine_cases hm
  have hread : Eval.readInput span m = .ok line.chomp { m with input := rest } := by
    simp only [Eval.readInput, Step.bind_apply, Step.get, Console.Input.readLine, htake]
    rfl
  rw [lift_bind, hread]
  dsimp only
  rw [note_bind]
  exact ⟨trivial, .takes htake rfl .done⟩

private theorem feeding_input {h : Host Recorded} (hh : h.toMedium = recorded)
    (prompt : Option Prompt) (span : Span) :
    Feeding (fun _ => True) (h.eval (.input prompt span)) := by
  obtain ⟨medium, call⟩ := h
  obtain rfl : medium = recorded := hh
  have hprompt : Feeding (fun _ => True) (Host.prompt ⟨recorded, call⟩ prompt span) := by
    cases prompt with
    | none => exact .pure trivial
    | some prompt => exact feeding_act (.print prompt.text span) rfl
  rw [Host.eval, Host.watched]
  refine .bind (.note rfl) fun _ _ => ?_
  rw [Recorded.bind_assoc]
  refine .bind hprompt fun _ _ => ?_
  rw [Recorded.bind_assoc]
  exact feeding_line prompt span

section Calls

variable {within : Int → Option Body → Recorded Value}

private theorem feeding_call (hw : ∀ scope body, Feeding (fun _ => True) (within scope body))
    (f : Function) (args : List Value) (span : Span) :
    Feeding (fun _ => True) (recorded.call within f args span) := by
  have hinput : Beside (·.input) :=
    ⟨offline_input.aloof, fun _ _ => rfl, fun _ _ => rfl, fun _ _ _ _ => rfl⟩
  exact feeding.call (l := recorded) (s := within)
    (fun hx => .lift (hx.keeps hinput) fun _ _ _ _ => trivial) (fun _ hn => .note hn) hw f args span

private theorem feeding_within {run : Option Body → Recorded Unit}
    (hr : ∀ body, Feeding (fun _ => True) (run body)) (scope : Int) (body : Option Body) :
    Feeding (fun _ => True) (recorded.within run scope body) :=
  .bind (P := fun _ => True) (.lift (.modifyGet fun _ => rfl) fun _ _ _ _ => trivial) fun _ _ =>
    .bind (hr body) fun _ _ => .lift (.modifyGet fun _ => rfl) fun _ _ _ _ => trivial

/-- It is enough that calls take note of the lines they read. -/
private theorem coupled_of_call {h : Host Recorded} (hh : h.toMedium = recorded)
    (hcall : ∀ f args span, Feeding (fun _ => True) (h.call f args span)) :
    Coupled feeding h h (fun _ => True) (fun _ _ => True) := by
  obtain ⟨medium, call⟩ := h
  obtain rfl : medium = recorded := hh
  exact {
    plain := fun _ => trivial
    names := fun _ => trivial
    note := fun n _ _ hn => Feeding.note hn
    act := fun a _ _ ha => feeding_act a ha
    input := fun prompt span _ => feeding_input rfl prompt span
    invoke := fun callee given span _ _ _ hargs =>
      Feeding.bind (feeding_act (.callable callee given span) rfl) fun f _ =>
        Feeding.bind hargs fun args _ => hcall f args span }

theorem coupled_feeding (rounds depth : Nat) :
    Coupled feeding (recorded.host rounds depth) (recorded.host rounds depth) (fun _ => True)
      (fun _ _ => True) := by
  induction depth with
  | zero =>
    refine coupled_of_call (recorded.host_toMedium rounds 0) fun f args span => ?_
    exact feeding_call (feeding_within fun _ => .lift .exhausted fun _ _ _ h => nomatch h)
      f args span
  | succ depth ih =>
    refine coupled_of_call (recorded.host_toMedium rounds (depth + 1)) fun f args span => ?_
    exact feeding_call (feeding_within fun body => ih.body? (fun _ => rfl) body fun _ _ =>
      Node.within_true) f args span

end Calls

theorem walk_feeding (rounds : Nat) (node : Node) :
    Feeding (fun _ => True) (walk rounds node) := by
  intro m
  refine (coupled_feeding rounds (m.settings.maxDepth + 1)).node (fun _ => rfl) Node.within_true
    (fun f _ => ?_) trivial (fun _ _ => trivial) id (fun _ => ?_) m
  · rw [Host.defineFunction, Host.act, recorded.host_toMedium]
    exact feeding.bind (feeding_act (.defineFunction f) rfl) fun _ _ => .note rfl
  · rw [Host.act, recorded.host_toMedium]
    exact feeding_act (.refuse node) rfl

/-- What is taken from the input while a tree is interpreted. -/
theorem interpret_fed (rounds : Nat) (node : Node) {m : Machine} (hm : m.input.failure = none) :
    ∃ rest, Fed m.input ((record rounds node m).map Moment.sight) rest ∧
      match interpret rounds node m with
      | .ok _ m' => m'.input = rest
      | .error _ m' => m'.input = rest
      | .exhausted => True := by
  have hwalk := walk_feeding rounds node m hm
  rw [← concluded_walk, record]
  generalize walk rounds node m = result at hwalk ⊢
  rcases result with ⟨_ | _ | _, happened⟩
  case ok v m' =>
    refine ⟨m'.input, hwalk.2, ?_⟩
    obtain ⟨w, hend⟩ | ⟨e, hend⟩ := conclude_cases node.span v m' <;> simp [concluded, hend]
  case error e m' => exact ⟨m'.input, hwalk, rfl⟩
  case exhausted =>
    obtain ⟨rest, hwalk⟩ := hwalk
    exact ⟨rest, hwalk, trivial⟩

end Machine

namespace Session

open Console (Fed)

/-- What is taken from the input while an entry is evaluated. -/
theorem enter_fed (rounds : Nat) (r : Reading) (entry : Bytes) {m : Machine}
    (hm : m.input.failure = none) :
    ∃ rest, Fed m.input ((record rounds r entry m).map Machine.Moment.sight) rest ∧
      ((∃ m', enter rounds r entry m = (.endless, m')) ∨
        (enter rounds r entry m).2.input = rest) := by
  simp only [record, enter, run]
  cases Syntax.parseEntry r.limits entry with
  | ok node s =>
    cases node with
    | none => exact ⟨m.input, .done, .inr rfl⟩
    | some node =>
      obtain ⟨rest, hfed, hafter⟩ := Machine.interpret_fed rounds node (m := noteParse r s m) hm
      refine ⟨rest, hfed, ?_⟩
      simp only [interpret]
      cases hi : Machine.interpret rounds node (noteParse r s m) with
      | ok v m' =>
        rw [hi] at hafter
        exact .inr hafter
      | error e m' =>
        rw [hi] at hafter
        exact .inr hafter
      | exhausted => exact .inl ⟨_, rfl⟩
  | error d s => exact ⟨m.input, .done, .inr rfl⟩
  | exhausted => exact ⟨m.input, .done, .inl ⟨_, rfl⟩⟩

end Session

end Kotoba
