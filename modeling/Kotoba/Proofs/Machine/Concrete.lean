import Kotoba.Proofs.Machine.Fair
import Kotoba.Proofs.Machine.Stack
import Kotoba.Proofs.Syntax.Placed

/-! Names are looked up, and missing values replaced by null, before anything is done with a value.
The result of a name is a reference, and other trees have none at all; but machines hold real values
only, and acts are given no others, whatever is entered. -/
namespace Kotoba

namespace Machine

/-- No tree makes a value that is not real, but for the reference that is the result of a name. -/
theorem fair_concrete :
    Fair (fun v => v.isConcrete) (fun _ => True) (fun _ => True) True where
  plain := Value.isConcrete_of_isPlain
  settled h := by cases h
  array _ := rfl
  file _ := rfl
  place _ _ _ := trivial
  operator _ _ := trivial
  loop _ := trivial
  body _ _ _ _ := trivial
  define _ := rfl

end Machine

namespace Session

open Machine (Agrees Holds)

variable (rounds : Nat) (r : Reading)

private theorem runnable_of_parseEntry {entry : Bytes} {n : Node} {s : Syntax.State}
    (h : Syntax.parseEntry r.limits entry = .ok (some n) s) : Machine.Runnable n :=
  Machine.runnable_of_isWhole (Syntax.StandsFor.rests (.inr ⟨s, h⟩)).1

private theorem enter_concrete (entry : Bytes) (m : Machine)
    (h : Holds (fun v => v.isConcrete) m) :
    Holds (fun v => v.isConcrete) (enter rounds r entry m).2 ∧
      ∀ v, (enter rounds r entry m).1 = .value v → v = .nothing ∨ v.isConcrete :=
  Session.run_fair Machine.fair_concrete rounds r
    (fun _ _ hn => ⟨runnable_of_parseEntry r hn, fun _ _ => trivial⟩) h

private theorem record_concrete (entry : Bytes) {m : Machine}
    (h : Holds (fun v => v.isConcrete) m) :
    ∀ moment ∈ record rounds r entry m, moment.Bears fun v => v.isConcrete := by
  unfold record
  split
  · next node s hn =>
    obtain ⟨-, hall, -⟩ := Machine.fair_concrete.walkBy (Machine.agrees_lift _) rounds
      (runnable_of_parseEntry r hn) (fun _ _ => trivial) (noteParse r s m)
      (h.congr rfl rfl rfl rfl)
    exact hall
  · simp

/-- At every moment of a session the machine holds real values only: in its scopes and arrays, among
the remembered results, and as the value of a return that is pending. The result of a name is a
reference to it; but every other result is a real value, and so is every value that is made of a
result where one is needed, every argument and the result of every call. What an entry is answered
with is one too, unless it is nothing. And as acts are given real values only, it makes no
difference to an entry what they would do with others. -/
theorem concrete_values (settings : Machine.Settings) (disk : Disk) (input : Console.Input)
    (output : Console.Output) (entries : List Bytes) :
    (∀ moment ∈ history rounds r entries { settings, disk, input, output },
      Holds (fun v => v.isConcrete) moment.machine ∧
      moment.note.Bears fun v => v.isConcrete) ∧
    Holds (fun v => v.isConcrete) (after rounds r entries { settings, disk, input, output }) ∧
    (∀ entry v, (enter rounds r entry
        (after rounds r entries { settings, disk, input, output })).1 = .value v →
      v = .nothing ∨ v.isConcrete) ∧
    ∀ perform, Agrees (fun v => v.isConcrete) perform →
      ∀ entry node s, Syntax.parseEntry r.limits entry = .ok (some node) s →
        let m := noteParse r s (after rounds r entries { settings, disk, input, output })
        Machine.walkBy perform rounds node m = Machine.walk rounds node m := by
  have hfresh : Holds (fun v => v.isConcrete) { settings, disk, input, output } :=
    Machine.holds_fresh _ _ rfl rfl rfl rfl
  have hkept : ∀ entry m, Holds (fun v => v.isConcrete) m →
      Holds (fun v => v.isConcrete) (enter rounds r entry m).2 :=
    fun entry m h => (enter_concrete rounds r entry m h).1
  have hafter := after_of_kept hkept entries hfresh
  refine ⟨fun moment hm => ?_, hafter, fun entry => (enter_concrete rounds r entry _ hafter).2,
    fun perform hp entry node s hn => ?_⟩
  · obtain ⟨entry, m, h, hm⟩ := exists_record_of_mem_history hkept hfresh hm
    exact record_concrete rounds r entry h moment hm
  · intro m
    have hm : Holds (fun v => v.isConcrete) m := hafter.congr rfl rfl rfl rfl
    obtain ⟨-, -, hsame⟩ := Machine.fair_concrete.walkBy hp rounds (runnable_of_parseEntry r hn)
      (fun _ _ => trivial) m hm
    exact hsame

end Session

end Kotoba
