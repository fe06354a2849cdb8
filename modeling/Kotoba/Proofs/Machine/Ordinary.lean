import Kotoba.Proofs.Machine.Fair
import Kotoba.Proofs.Syntax.Shape

/-! Trees that a text stands for can be evaluated. They are well formed, and so are the bodies of
the functions that they define; so the faults that tell of other trees never occur. -/
namespace Kotoba

theorem Layer.isBinary_of_mem_ops {layer : Layer} {op : Op} (h : op ∈ layer.ops) : op.isBinary := by
  have hall : layer.ops.all Op.isBinary := by cases layer <;> rfl
  exact List.all_eq_true.mp hall op h

namespace Machine

/-- Well-formed trees fail with no faults but those of trees that texts have. -/
theorem fair_wellFormed :
    Fair (Value.Runs fun n => n.isWellFormed) (fun n => n.isWellFormed)
      (fun f => f.fault.isForeign = false) True := by
  refine fair_runs (fun _ _ hf => hf) (fun {layer _ _ o _} hn ho => ?_) fun _ => trivial
  -- an operator of a layer stands between two operands
  have hop : o.op ∈ layer.ops := (of_decide_eq_true hn).1
  rw [Layer.isBinary_of_mem_ops hop] at ho
  cases ho

end Machine

namespace Session

open Machine (Holds)
open Syntax (StandsFor)

/-- Machines as texts find them: unused ones, and those on which entries and programs were run. -/
inductive Reached : Machine → Prop
  | fresh (settings : Machine.Settings) (disk : Disk) (input : Console.Input)
    (output : Console.Output) : Reached { settings, disk, input, output }
  | enter {m : Machine} (rounds : Nat) (r : Reading) (entry : Bytes) (before : Reached m) :
    Reached (enter rounds r entry m).2
  | execute {m : Machine} (rounds : Nat) (r : Reading) (program : Bytes) (before : Reached m) :
    Reached (execute rounds r program m).2

theorem standsFor_of_parseWhole {limits : Token.Limits} {text : Bytes} {n : Node} {s : Syntax.State}
    (h : parseWhole limits text = .ok (some n) s) : StandsFor limits text n := by
  unfold parseWhole at h
  split at h
  · next p _ hp =>
    cases h
    exact .inl ⟨p, s, hp, rfl⟩
  · cases h
  · cases h

/-- A tree that a text stands for can be evaluated, and all its parts are as they have to be. -/
theorem standsFor_fine {limits : Token.Limits} {text : Bytes} {n : Node}
    (h : StandsFor limits text n) : Machine.Runnable n ∧ n.Every fun m => m.isWellFormed :=
  ⟨Machine.runnable_of_isWhole h.rests.1, h.wellFormed.1⟩

/-- The functions that such a machine holds have well-formed bodies. -/
theorem Reached.holds {m : Machine} (h : Reached m) :
    Holds (Value.Runs fun n => n.isWellFormed) m := by
  induction h with
  | fresh settings disk input output => exact Machine.holds_fresh _ _ rfl rfl rfl rfl
  | enter rounds r entry _ ih =>
    exact (run_fair Machine.fair_wellFormed rounds r
      (fun n s hn => standsFor_fine (.inr ⟨s, hn⟩)) ih).1
  | execute rounds r program _ ih =>
    exact (run_fair Machine.fair_wellFormed rounds r
      (fun n s hn => standsFor_fine (standsFor_of_parseWhole hn)) ih).1

/-- A tree that a text stands for is well formed: all its parts are as they have to be, no jump is
among the statements of an entry, and its nodes of layers are made of an operator and a right
operand. So its evaluation, whatever was run before, never meets an operator it does not know or a
tree it cannot evaluate. -/
theorem standsFor_wellFormed {limits : Token.Limits} {text : Bytes} {root : Node}
    (h : StandsFor limits text root) :
    root.WellFormed ∧ (∀ b, root = .body b → b.isPlain) ∧
      (∀ e layer, root.Part (.expr e) → e.ownLayer? = some layer → ∃ left op right span,
        Expr.layer? layer left (some op) (some right) span = some e) ∧
      ∀ m, Reached m → ∀ rounds f m', Machine.interpret rounds root m = .error f m' →
        f.fault.isForeign = false := by
  obtain ⟨hformed, hplain⟩ := h.wellFormed
  refine ⟨hformed, hplain, fun e layer he hlayer => ?_, fun m hm rounds f m' hf => ?_⟩
  · have hwell := hformed _ he
    cases e with
    | binary layer' left op right span =>
      cases hlayer
      exact ⟨left, op, right, span, rfl⟩
    | single => cases hwell
    | _ => cases hlayer
  · obtain ⟨hn, hfine⟩ := standsFor_fine h
    have hend := Machine.Minds.interpret Machine.fair_wellFormed rounds hn hfine m hm.holds
    rw [hf] at hend
    cases hend with
    | error holds failure => exact failure

/-- Whether a tree prints one value, for which it applies an operator of the additive layer. -/
private def printsSum : Node → Bool
  | .body ⟨[.print [e] false _], _⟩ => e.ownLayer? == some .additive
  | _ => false

private theorem exists_of_printsSum {n : Node} (h : printsSum n) :
    ∃ e span b, n = .body ⟨[.print [e] false span], b⟩ ∧ e.ownLayer? = some .additive := by
  unfold printsSum at h
  split at h
  · exact ⟨_, _, _, rfl, eq_of_beq h⟩
  · cases h

/-- Whether a run ended in a failure. -/
private def hasFailed : Outcome Machine Machine.Failure Value → Bool
  | .error _ _ => true
  | _ => false

private theorem exists_of_hasFailed {o : Outcome Machine Machine.Failure Value} (h : hasFailed o) :
    ∃ f m, o = .error f m := by
  cases o with
  | error f m => exact ⟨f, m, rfl⟩
  | _ => cases h

/-- A sum is printed, of which one operand is a call that divides by zero. -/
theorem standsFor_wellFormed_division :
    let m : Machine := (enter 9 ⟨{}, false⟩ "kawaii f(x) => { nani (x > 0) { modoru x / 0; } }" {}).2
    ∃ root b e f m', StandsFor {} "yomu(f(1) + 2)" root ∧ root = .body b ∧ b.isPlain ∧
      root.Part (.expr e) ∧ e.ownLayer? = some .additive ∧
      (∃ left op right span, Expr.layer? .additive left (some op) (some right) span = some e) ∧
      Reached m ∧ Machine.interpret 9 root m = .error f m' ∧ f.fault.isForeign = false ∧
      root.WellFormed := by
  intro m
  have hm : Reached m := .enter 9 _ _ (.fresh {} {} {} {})
  have hcheck : (Syntax.entryOf? {} "yomu(f(1) + 2)").any (fun n =>
      printsSum n && hasFailed (Machine.interpret 9 n m)) = true := by decide +kernel
  obtain ⟨root, hroot, hcheck⟩ := (Option.any_eq_true _ _).mp hcheck
  rw [Bool.and_eq_true] at hcheck
  obtain ⟨e, span, b, rfl, hlayer⟩ := exists_of_printsSum hcheck.1
  obtain ⟨f, m', hrun⟩ := exists_of_hasFailed hcheck.2
  have hstands : StandsFor {} "yomu(f(1) + 2)" (.body ⟨[.print [e] false span], b⟩) :=
    .inr (Syntax.entryOf?_eq_some.mp hroot)
  have hpart : (Node.body ⟨[.print [e] false span], b⟩).Part (.expr e) :=
    .child (.child .self (List.mem_singleton.mpr rfl)) (List.mem_singleton.mpr rfl)
  obtain ⟨hformed, hplain, hmade, hfaults⟩ := standsFor_wellFormed hstands
  exact ⟨_, _, e, f, m', hstands, rfl, hplain _ rfl, hpart, hlayer, hmade e _ hpart hlayer, hm,
    hrun, hfaults m hm 9 f m' hrun, hformed⟩

end Session

end Kotoba
