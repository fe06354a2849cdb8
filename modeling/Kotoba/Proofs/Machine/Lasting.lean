import Kotoba.Proofs.Machine.Record

/-! Arrays last. An array that was made once is there for good and keeps its length, along the
record of an evaluation and to its end, whether it succeeds or fails. -/
namespace Kotoba

/-- The state in which a computation succeeded or failed. -/
def Outcome.state? {σ ε α : Type} : Outcome σ ε α → Option σ
  | .ok _ s => some s
  | .error _ s => some s
  | .exhausted => none

/-- Whether the arrays of a store are in another one too, of the same lengths. -/
structure Store.Lasts (s t : Store) : Prop where
  made : s.arrays.size ≤ t.arrays.size
  length : ∀ a, a < s.arrays.size → (t.elements a).size = (s.elements a).size

namespace Store.Lasts

variable {s t u : Store}

theorem of_arrays (h : t.arrays = s.arrays) : s.Lasts t where
  made := Nat.le_of_eq (congrArg Array.size h.symm)
  length a _ := by rw [elements, h, elements]

theorem refl (s : Store) : s.Lasts s := of_arrays rfl

theorem trans (h : s.Lasts t) (h' : t.Lasts u) : s.Lasts u where
  made := Nat.le_trans h.made h'.made
  length a ha := by
    have hlater := h'.length a (Nat.lt_of_lt_of_le ha h.made)
    exact hlater.trans (h.length a ha)

theorem alloc (s : Store) (elements : Array Value) : s.Lasts (s.alloc elements).2 where
  made := by simp [Store.alloc]
  length a ha := by
    have hne : a ≠ s.arrays.size := Nat.ne_of_lt ha
    simp [Store.alloc, Store.elements, Array.getElem?_push, hne]

theorem update (s : Store) (a i : Nat) (v : Value) : s.Lasts (s.update a i v) where
  made := by simp [Store.update]
  length b hb := by
    simp only [Store.update, Store.elements, Array.getElem?_modify]
    split
    · cases s.arrays[b]? <;> simp
    · rfl

end Store.Lasts

namespace Machine

open Step (Keeps)

variable {α β : Type}

/-- Computations after which the arrays that were there are still there. -/
def Lasting (x : Eval α) : Prop := ∀ m m', (x m).state? = some m' → m.store.Lasts m'.store

theorem lasting_of_keeps {x : Eval α} (h : Keeps (·.store.arrays) x) : Lasting x := by
  intro m m' hm'
  have hkept := h m
  cases hx : x m with
  | ok a m₁ =>
    rw [hx] at hm' hkept
    cases hm'
    exact .of_arrays hkept
  | error e m₁ =>
    rw [hx] at hm' hkept
    cases hm'
    exact .of_arrays hkept
  | exhausted =>
    rw [hx] at hm'
    cases hm'

theorem aloof_arrays : Aloof (·.store.arrays) := by constructor <;> intros <;> rfl

private theorem lasting_alloc (elements : Array Value) : Lasting (Eval.alloc elements) := by
  intro m m' hm'
  cases hm'
  exact .alloc m.store elements

private theorem lasting_sizedArray (v : Value) (span : Span) : Lasting (sizedArray v span) := by
  cases v with
  | int n =>
    simp only [sizedArray]
    split
    · exact lasting_of_keeps (keeps_described _ _ _)
    · split
      · exact lasting_of_keeps (keeps_fault _ _)
      · exact lasting_alloc _
  | _ => exact lasting_of_keeps (keeps_described _ _ _)

theorem lasting_act (a : Act α) : Lasting a.perform := by
  cases a with
  | alloc elements => exact lasting_alloc elements
  | sizedArray v span => exact lasting_sizedArray v span
  | setSlot array slot v =>
    intro m m' hm'
    cases hm'
    exact .update m.store array slot v
  | callable x given span => exact lasting_of_keeps (keeps_callable (fun _ _ => rfl) x given span)
  | signal jump => exact lasting_of_keeps (keeps_signal (fun _ _ => rfl) jump)
  | endRound => exact lasting_of_keeps (keeps_endRound fun _ _ => rfl)
  | defineFunction f =>
    exact lasting_of_keeps (.bind (aloof_arrays.trace _) fun _ => .bind (.modify fun _ => rfl)
      fun _ => .modify fun _ => rfl)
  | readInput span =>
    exact lasting_of_keeps (.bind .get fun _ => .bind (.modify fun _ => rfl) fun _ =>
      keeps_ofExcept _ _)
  | _ => exact lasting_of_keeps (aloof_arrays.act _ rfl rfl rfl fun _ _ _ => .modify fun _ => rfl)

/-- Machines one after the other, from the first to the last, and no array gets lost on the way. -/
inductive Course : Machine → List Moment → Machine → Prop
  | done {m m' : Machine} (h : m.store.Lasts m'.store) : Course m [] m'
  | next {m m' : Machine} {moment : Moment} {past : List Moment}
    (h : m.store.Lasts moment.machine.store) (rest : Course moment.machine past m') :
    Course m (moment :: past) m'

namespace Course

variable {m m₁ m' : Machine} {past more : List Moment}

theorem after (h : m.store.Lasts m₁.store) (hc : Course m₁ past m') : Course m past m' := by
  cases hc with
  | done h' => exact .done (h.trans h')
  | next h' rest => exact .next (h.trans h') rest

theorem append (h : Course m past m₁) (h' : Course m₁ more m') : Course m (past ++ more) m' := by
  induction h with
  | done hlasts => exact h'.after hlasts
  | next hlasts _ ih => exact .next hlasts (ih h')

theorem pairwise (h : Course m past m') :
    (m :: (past.map (·.machine) ++ [m'])).Pairwise fun n n' => n.store.Lasts n'.store := by
  induction h with
  | done hlasts => simpa using hlasts
  | next hlasts _ ih =>
    refine List.pairwise_cons.mpr ⟨fun n hn => ?_, ih⟩
    rcases List.mem_cons.mp hn with rfl | hn
    · exact hlasts
    · exact hlasts.trans ((List.pairwise_cons.mp ih).1 n hn)

end Course

/-- An outcome as in `P` that comes with a record along which no array gets lost. -/
def Endures (P : α → Prop) (m : Machine) : Outcome Machine Failure α × List Moment → Prop
  | (.ok a m', past) => P a ∧ Course m past m'
  | (.error _ m', past) => Course m past m'
  | (.exhausted, past) => ∃ m', Course m past m'

/-- Computations with a record along which no array gets lost. -/
def Enduring (P : α → Prop) (x : Recorded α) : Prop := ∀ m, Endures P m (x m)

namespace Enduring

variable {P : α → Prop} {Q : β → Prop}

theorem pure {a : α} (ha : P a) : Enduring P (Pure.pure a) := fun _ => ⟨ha, .done (.refl _)⟩

theorem bind {x : Recorded α} {f : α → Recorded β} (hx : Enduring P x)
    (hf : ∀ a, P a → Enduring Q (f a)) : Enduring Q (x >>= f) := by
  intro m
  have hxm := hx m
  rw [Recorded.bind_apply]
  generalize x m = result at hxm ⊢
  rcases result with ⟨_ | _ | _, past⟩
  case ok a m₁ =>
    obtain ⟨ha, hcourse⟩ := hxm
    have hfm := hf a ha m₁
    dsimp only
    generalize f a m₁ = result at hfm ⊢
    rcases result with ⟨_ | _ | _, more⟩
    case ok b m' => exact ⟨hfm.1, hcourse.append hfm.2⟩
    case error e m' => exact hcourse.append hfm
    case exhausted =>
      obtain ⟨m', hfm⟩ := hfm
      exact ⟨m', hcourse.append hfm⟩
  case error e m' => exact hxm
  case exhausted => exact hxm

theorem lift {x : Eval α} (hx : Lasting x) (hP : ∀ m a m', x m = .ok a m' → P a) :
    Enduring P (recorded.lift x) := by
  intro m
  have hm := hx m
  simp only [recorded]
  cases hxm : x m with
  | ok a m' => exact ⟨hP m a m' hxm, .done (hm m' (by rw [hxm]; rfl))⟩
  | error e m' => exact .done (hm m' (by rw [hxm]; rfl))
  | exhausted => exact ⟨m, .done (.refl _)⟩

theorem note (n : Note) : Enduring (fun _ => True) (recorded.note n) :=
  fun _ => ⟨trivial, .next (.refl _) (.done (.refl _))⟩

end Enduring

def enduring : Bridge Recorded Recorded where
  Rel P x _ := Enduring P x
  pure ha := Enduring.pure ha
  bind hx hf := Enduring.bind hx hf

private theorem enduring_act (a : Act α) :
    Enduring (a.Gives fun _ => True) (recorded.lift a.perform) :=
  .lift (lasting_act a) fun _ _ _ ha => Act.gives_of_ok ha

private theorem enduring_keeps {x : Eval α} (h : Keeps (·.store.arrays) x) :
    Enduring (fun _ => True) (recorded.lift x) :=
  .lift (lasting_of_keeps h) fun _ _ _ _ => trivial

private theorem enduring_call {within : Int → Option Body → Recorded Value}
    (hw : ∀ scope body, Enduring (fun _ => True) (within scope body)) (f : Function)
    (args : List Value) (span : Span) :
    Enduring (fun _ => True) (recorded.call within f args span) := by
  have harrays : Beside (·.store.arrays) :=
    ⟨aloof_arrays, fun _ _ => rfl, fun _ _ => rfl, fun _ _ _ _ => rfl⟩
  exact enduring.call (l := recorded) (s := within) (fun hx => enduring_keeps (hx.keeps harrays))
    (fun n _ => Enduring.note n) hw f args span

private theorem enduring_within {run : Option Body → Recorded Unit}
    (hr : ∀ body, Enduring (fun _ => True) (run body)) (scope : Int) (body : Option Body) :
    Enduring (fun _ => True) (recorded.within run scope body) :=
  .bind (enduring_keeps (.modifyGet fun _ => rfl)) fun _ _ => .bind (hr body) fun _ _ =>
    enduring_keeps (.modifyGet fun _ => rfl)

theorem lockstep_enduring (rounds depth : Nat) :
    Lockstep enduring (recorded.host rounds depth) (recorded.host rounds depth) (fun _ => True)
      (fun _ => True) := by
  induction depth with
  | zero =>
    exact .of_call (fun _ => trivial) (fun _ => trivial) (fun n _ => Enduring.note n)
      (fun a _ _ => enduring_act a) fun f args span _ _ _ =>
        enduring_call (enduring_within fun _ => enduring_keeps .exhausted) f args span
  | succ depth ih =>
    exact .of_call (fun _ => trivial) (fun _ => trivial) (fun n _ => Enduring.note n)
      (fun a _ _ => enduring_act a) fun f args span _ _ _ =>
        enduring_call (enduring_within fun body => ih.body? rounds body fun _ _ => trivial) f args
          span

/-- Whatever an expression does, the arrays that were there are still there, of the same lengths. -/
theorem lasting_evalExpr (rounds depth : Nat) (e : Expr) :
    Lasting (evalExpr (runBody rounds depth) e) := by
  intro m m' hm'
  -- the walk that keeps a record comes to the same end, and its record is a course
  have herases := ((lockstep_erasure rounds depth).expr e (fun _ _ => trivial) m).1
  have hendures := (lockstep_enduring rounds depth).expr e (fun _ _ => trivial) m
  rw [host_plain, expr_plainHost] at herases
  rw [← herases] at hm'
  generalize (recorded.host rounds depth).expr e m = result at hm' hendures
  have hcourse : Course m result.2 m' := by
    rcases result with ⟨_ | _ | _, past⟩
    case ok v m₁ =>
      cases hm'
      exact hendures.2
    case error e m₁ =>
      cases hm'
      exact hendures
    case exhausted => cases hm'
  exact (List.pairwise_cons.mp hcourse.pairwise).1 m' (by simp)

theorem walk_endures (rounds : Nat) (node : Node) :
    Enduring (fun _ => True) (walk rounds node) := by
  intro m
  refine (lockstep_enduring rounds (m.settings.maxDepth + 1)).node (fun f => ?_) rounds node m
  rw [Host.defineFunction, Host.act, recorded.host_toMedium]
  exact enduring.bind (enduring_act (.defineFunction f)) fun _ _ => Enduring.note _

/-- No array gets lost or changes its length while a tree is interpreted, from any moment of the
evaluation to any later one, and to its end. -/
theorem interpret_lasts (rounds : Nat) (node : Node) (m : Machine) :
    (m :: ((record rounds node m).map (·.machine) ++
      (interpret rounds node m).state?.toList)).Pairwise fun n n' => n.store.Lasts n'.store := by
  have hwalk := walk_endures rounds node m
  rw [← concluded_walk, record]
  generalize walk rounds node m = result at hwalk ⊢
  -- what is left to do at the end does not concern the store
  have hstore : ∀ {past : List Moment} {m₁ : Machine} (m' : Machine), Course m past m₁ →
      m'.store = m₁.store → Course m past m' := by
    intro past m₁ m' h hs
    have hend : Course m₁ [] m' := .done (.of_arrays (congrArg (·.arrays) hs))
    have hall := h.append hend
    rwa [List.append_nil] at hall
  rcases result with ⟨_ | _ | _, past⟩
  case ok v m₁ =>
    have hall := (hstore { m₁ with flags := {} } hwalk.2 rfl).pairwise
    obtain ⟨w, hend⟩ | ⟨e, hend⟩ := conclude_cases node.span v m₁ <;>
      rw [concluded, hend] <;> exact hall
  case error e m₁ => exact (hstore m₁.reset hwalk rfl).pairwise
  case exhausted =>
    obtain ⟨m', hcourse⟩ := hwalk
    have hall := hcourse.pairwise
    rw [← List.cons_append] at hall
    simpa [concluded, Outcome.state?] using (List.pairwise_append.mp hall).1

end Machine

end Kotoba
