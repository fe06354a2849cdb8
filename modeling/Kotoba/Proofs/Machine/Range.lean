import Kotoba.Proofs.Machine.Counter
import Kotoba.Proofs.Machine.Local

/-! Loops over ranges. A loop goes through the integers of its range in order, both ends included,
and runs its body once for each of them, until the body fails, breaks or returns. What the body does
to the counter makes no difference. -/
namespace Kotoba

namespace Machine

/-- The integer and as many more as a counter goes on to. -/
def counted (step : Int64) : (more : Nat) → Int64 → List Int64
  | 0, n => [n]
  | more + 1, n => n :: counted step more (n + step)

/-- The integers from `first` to `last` as a counter goes through them. -/
def between (first last : Int64) : List Int64 :=
  counted (stride first last) (last.toInt - first.toInt).natAbs first

theorem length_counted (step : Int64) (more : Nat) (n : Int64) :
    (counted step more n).length = more + 1 := by
  induction more generalizing n with
  | zero => rfl
  | succ more ih => rw [counted, List.length_cons, ih]

theorem toInt_getElem_counted {step last n : Int64} {more k : Nat} (h : Ahead step last more n)
    (hk : k < (counted step more n).length) :
    (counted step more n)[k].toInt = n.toInt + k * step.toInt := by
  induction more generalizing n k with
  | zero =>
    have hzero : k = 0 := by
      rw [length_counted] at hk
      omega
    subst hzero
    simp [counted]
  | succ more ih =>
    cases k with
    | zero => simp [counted]
    | succ k =>
      have hk' : k < (counted step more (n + step)).length := by
        rw [length_counted] at hk ⊢
        omega
      have hnext := ih h.next hk'
      rw [h.toInt_add] at hnext
      simp only [counted, List.getElem_cons_succ, hnext]
      push_cast
      ring

theorem length_between (first last : Int64) :
    (between first last).length = (last.toInt - first.toInt).natAbs + 1 :=
  length_counted _ _ _

/-- The integers of a range are one step apart, without a wrap, and lead from its first to its
last. -/
theorem toInt_getElem_between {first last : Int64} {k : Nat}
    (hk : k < (between first last).length) :
    (between first last)[k].toInt = first.toInt + k * (last.toInt - first.toInt).sign := by
  have hvalue := toInt_getElem_counted (ahead_first first last) hk
  have hcount := length_between first last
  have hsign : k * (stride first last).toInt = k * (last.toInt - first.toInt).sign := by
    rw [toInt_stride]
    rcases lt_trichotomy last.toInt first.toInt with hlt | heq | hgt
    · rw [if_pos hlt, Int.sign_eq_neg_one_of_neg (by omega)]
    · have hzero : k = 0 := by omega
      simp [hzero]
    · rw [if_neg (by omega), Int.sign_eq_one_of_pos (by omega)]
  exact hvalue.trans (by rw [hsign])

/-- Whether a round that ended with such flags is the last one of its loop. -/
def Flags.endsLoop (f : Flags) : Bool := f.breaking || f.returning

namespace Flags

variable {f : Flags}

theorem endRound_of_endsLoop (h : f.endsLoop) : f.endRound.1 = true := by
  unfold endRound
  split
  · rfl
  · next hb => simpa [endsLoop, hb] using h

theorem endRound_of_goes (h : f.endsLoop = false) :
    f.endRound = (false, { f with continuing := false }) := by
  simp only [endsLoop, Bool.or_eq_false_iff] at h
  simp [endRound, h]

end Flags

/-- The machine at the beginning of a round, with the counter bound to the integer of the round. -/
def begun (counter : String) (n : Int64) (m : Machine) : Machine :=
  { m with arena := m.arena.define m.scope counter (.int n) }

/-- Rounds of a loop. From the first machine to the last the body was run once for each of the
integers in order, and no round broke, returned or failed. -/
inductive Rounds (counter : String) (body : Eval Unit) : Machine → List Int64 → Machine → Prop
  | none {m : Machine} : Rounds counter body m [] m
  | more {m m' m'' : Machine} {n : Int64} {ns : List Int64}
    (hbody : body (begun counter n m) = .ok () m') (hgoes : m'.flags.endsLoop = false)
    (h : Rounds counter body { m' with flags := { m'.flags with continuing := false } } ns m'') :
    Rounds counter body m (n :: ns) m''

/-- Whether a round is the last one of its loop, whatever is still to come. -/
def Halts : Outcome Machine Failure Unit → Prop
  | .ok () m => m.flags.endsLoop = true
  | .error _ _ | .exhausted => True

/-- How a loop ends with a round that halts it. A break has thereby been dealt with, and a return is
passed on. -/
def halted : Outcome Machine Failure Unit → Outcome Machine Failure Unit
  | .ok () m => .ok () { m with flags := m.flags.endRound.2 }
  | o => o

theorem exists_of_not_halts {o : Outcome Machine Failure Unit} (h : ¬ Halts o) :
    ∃ m, o = .ok () m ∧ m.flags.endsLoop = false := by
  cases o with
  | ok u m => exact ⟨m, rfl, by simpa [Halts] using h⟩
  | error | exhausted => exact absurd trivial h

section Loop

variable {counter : String} {body : Eval Unit}

/-- Runs `body` once for each of the integers, until it breaks or returns. -/
def visit (counter : String) (body : Eval Unit) : List Int64 → Eval Unit
  | [] => pure ()
  | n :: ns => do
    Eval.define counter (.int n)
    body
    if (← endRound) then pure () else visit counter body ns

/-- A loop goes through all integers that are ahead. -/
theorem rangeLoop_eq_visit {step last n : Int64} {more : Nat} (h : Ahead step last more n) :
    rangeLoop counter step last body (more + 1) n = visit counter body (counted step more n) := by
  have hlast := h.eq_last_iff
  induction more generalizing n with
  | zero =>
    rw [rangeLoop, beq_iff_eq.mpr (hlast.mpr rfl)]
    simp only [counted, visit, Bool.or_true, if_true, ite_self]
  | succ more ih =>
    have hne : (n == last) = false := by
      rw [beq_eq_false_iff_ne]
      exact fun heq => absurd (hlast.mp heq) (Nat.succ_ne_zero more)
    rw [rangeLoop, hne, ih h.next h.next.eq_last_iff]
    simp only [counted, visit, Bool.or_false]

theorem fullRange_eq_visit (first last : Int64) :
    fullRange counter first last body = visit counter body (between first last) :=
  rangeLoop_eq_visit (ahead_first first last)

theorem visit_halts {m : Machine} {n : Int64} (ns : List Int64)
    (h : Halts (body (begun counter n m))) :
    visit counter body (n :: ns) m = halted (body (begun counter n m)) := by
  have hdefine : Eval.define counter (.int n) m = .ok () (begun counter n m) := rfl
  rw [visit, Step.bind_apply, hdefine]
  simp only [Step.bind_apply]
  cases hbody : body (begun counter n m) with
  | error | exhausted => rfl
  | ok u m' =>
    rw [hbody] at h
    simp [endRound, Step.modifyGet, halted, Flags.endRound_of_endsLoop h]

theorem visit_goes {m m' : Machine} {n : Int64} (ns : List Int64)
    (hbody : body (begun counter n m) = .ok () m') (hgoes : m'.flags.endsLoop = false) :
    visit counter body (n :: ns) m =
      visit counter body ns { m' with flags := { m'.flags with continuing := false } } := by
  have hdefine : Eval.define counter (.int n) m = .ok () (begun counter n m) := rfl
  rw [visit, Step.bind_apply, hdefine]
  simp only [Step.bind_apply, hbody]
  simp [endRound, Step.modifyGet, Flags.endRound_of_goes hgoes]

/-- After its first rounds a loop goes on with what is left of the integers. -/
theorem Rounds.visit_append {m m' : Machine} {ran : List Int64} (h : Rounds counter body m ran m')
    (ns : List Int64) : visit counter body (ran ++ ns) m = visit counter body ns m' := by
  induction h with
  | none => rfl
  | more hbody hgoes _ ih => rw [List.cons_append, visit_goes _ hbody hgoes, ih]

/-- A loop that no round halts comes to its end. -/
theorem exists_rounds {m : Machine} {ns : List Int64}
    (h : ∀ ran n rest m', ns = ran ++ n :: rest → Rounds counter body m ran m' →
      ¬ Halts (body (begun counter n m'))) : ∃ m', Rounds counter body m ns m' := by
  induction ns generalizing m with
  | nil => exact ⟨m, .none⟩
  | cons n ns ih =>
    obtain ⟨m₁, hbody, hgoes⟩ := exists_of_not_halts (h [] n ns m rfl .none)
    obtain ⟨m', hrounds⟩ := ih (m := { m₁ with flags := { m₁.flags with continuing := false } })
      fun ran k rest m₂ hns hran =>
        h (n :: ran) k rest m₂ (by rw [hns, List.cons_append]) (.more hbody hgoes hran)
    exact ⟨m', .more hbody hgoes hrounds⟩

theorem surroundings_begun (counter : String) (n : Int64) (m : Machine) :
    surroundings (begun counter n m) = surroundings m :=
  (surroundings_define counter (.int n)).of_ok rfl

/-- Rounds change no scope but the present one if the body does not. -/
theorem Rounds.surroundings {m m' : Machine} {ran : List Int64} (h : Rounds counter body m ran m')
    (hbody : ∀ m m', 0 < m.arena.depth → body m = .ok () m' →
      Machine.surroundings m' = Machine.surroundings m)
    (hlive : 0 < m.arena.depth) : Machine.surroundings m' = Machine.surroundings m := by
  induction h with
  | none => rfl
  | @more m m₁ m' n ns hrun hgoes _ ih =>
    have hbegun := surroundings_begun counter n m
    have hdepth : (begun counter n m).arena.depth = m.arena.depth := congrArg (·.2.1) hbegun
    have hround : Machine.surroundings m₁ = Machine.surroundings m :=
      (hbody _ _ (by rw [hdepth]; exact hlive) hrun).trans hbegun
    have hdepth₁ : m₁.arena.depth = m.arena.depth := congrArg (·.2.1) hround
    exact (ih (by rw [hdepth₁]; exact hlive)).trans hround

end Loop

/-- Whether the present scope is live. -/
def IsLive (m : Machine) : Prop := (m.arena.scope? m.scope).isSome

theorem IsLive.depth_pos {m : Machine} (h : m.IsLive) : 0 < m.arena.depth := by
  have hbounds := Arena.isLive_iff.mp h
  have hg : Arena.global = 0 := rfl
  omega

theorem IsLive.of_surroundings {m m' : Machine} (h : m.IsLive)
    (hsame : surroundings m' = surroundings m) : m'.IsLive := by
  have hdepth : m'.arena.depth = m.arena.depth := congrArg (·.2.1) hsame
  have hscope : m'.scope = m.scope := congrArg (·.2.2.1) hsame
  apply Arena.isLive_iff.mpr
  rw [hdepth, hscope]
  exact Arena.isLive_iff.mp h

theorem restores_evalExpr {rounds depth : Nat} {e : Expr} {m m' : Machine} {v : Value}
    (hlive : m.IsLive) (h : evalExpr (runBody rounds depth) e m = .ok v m') :
    Restores m m' := by
  have hall : evalAll (runBody rounds depth) [e] m = .ok [v] m' := by
    rw [evalExpr] at h
    simp [evalAll, h]
  exact restores_evalAll rounds depth [e] m m' [v] hlive.depth_pos hall

/-- Executes the body of a statement, if it has one. -/
def execBody? (c : Context) : Option Body → Eval Unit
  | some body => execBody c body
  | none => pure ()

/-- A loop over a range runs its body once for each of the integers from the first to the last, in
order and one apart, unless a round halts it: its body fails, breaks or returns. Then no further
round is run. Each round begins with the counter bound to its integer, whatever became of the
counter and of what the bounds depend on in the rounds before. -/
theorem range_visits (rounds depth : Nat) (counter : Ident) (first last : Expr)
    (body : Option Body) (span : Span) (m m₁ m₂ : Machine) (start stop : Int64)
    (hfirst : evalExpr (runBody rounds depth) first m = .ok (.int start) m₁)
    (hlast : evalExpr (runBody rounds depth) last m₁ = .ok (.int stop) m₂) :
    let c : Context := ⟨runBody rounds depth, rounds⟩
    let loop := execStmt c (.range counter first last body span) m
    let values := between start stop
    (values.length = (stop.toInt - start.toInt).natAbs + 1 ∧
      ∀ k (hk : k < values.length),
        values[k].toInt = start.toInt + k * (stop.toInt - start.toInt).sign) ∧
    ((∀ ran n rest m', values = ran ++ n :: rest →
        Rounds counter.name (execBody? c body) m₂ ran m' →
        ¬ Halts (execBody? c body (begun counter.name n m'))) →
      ∃ m', Rounds counter.name (execBody? c body) m₂ values m' ∧ loop = .ok () m') ∧
    ∀ ran n rest m', values = ran ++ n :: rest →
      Rounds counter.name (execBody? c body) m₂ ran m' →
      (m.IsLive → (begun counter.name n m').arena.lookup m'.scope counter.name = .ok (.int n)) ∧
      (Halts (execBody? c body (begun counter.name n m')) →
        loop = halted (execBody? c body (begun counter.name n m'))) := by
  intro c loop values
  have hloop : loop = visit counter.name (execBody? c body) values m₂ := by
    have hrange : loop = fullRange counter.name start stop (execBody? c body) m₂ := by
      show execStmt c (.range counter first last body span) m = _
      cases body <;> simp [execStmt, execBody?, c, hfirst, hlast, rangeBound]
    rw [hrange, fullRange_eq_visit]
  refine ⟨⟨length_between start stop, fun k hk => toInt_getElem_between hk⟩, ?_, ?_⟩
  · intro hgoes
    obtain ⟨m', hrounds⟩ := exists_rounds hgoes
    have hend := hrounds.visit_append []
    rw [List.append_nil] at hend
    exact ⟨m', hrounds, hloop.trans hend⟩
  · intro ran n rest m' hvalues hran
    constructor
    · intro hlive
      have hm₁ : m₁.IsLive :=
        hlive.of_surroundings (surroundings_of_stack (restores_evalExpr hlive hfirst).stack)
      have hm₂ : m₂.IsLive :=
        hm₁.of_surroundings (surroundings_of_stack (restores_evalExpr hm₁ hlast).stack)
      have hbody : ∀ m m', 0 < m.arena.depth → execBody? c body m = .ok () m' →
          surroundings m' = surroundings m := by
        intro m m' hdepth h
        apply surroundings_runBody rounds (depth + 1) body m m' hdepth
        cases body <;> exact h
      have hm' : m'.IsLive := hm₂.of_surroundings (hran.surroundings hbody hm₂.depth_pos)
      exact Arena.lookup_define hm' _ _
    · intro hhalts
      rw [hloop, hvalues, hran.visit_append]
      exact visit_halts rest hhalts

/-- No jump is pending between rounds. -/
theorem Rounds.isRaised_eq {counter : String} {body : Eval Unit} {m m' : Machine}
    {ran : List Int64} (h : Rounds counter body m ran m') (hm : m.flags.isRaised = false) :
    m'.flags.isRaised = false := by
  induction h with
  | none => exact hm
  | more _ hgoes _ ih => exact ih (by simpa [Flags.isRaised, Flags.endsLoop] using hgoes)

/-- A loop up to the greatest integer in which the body sets the counter back takes two rounds. A
loop through all integers that breaks at once takes one. -/
theorem range_visits_limits :
    (∃ m', Rounds "i" (execBody? ⟨runBody 0 0, 0⟩ (some ⟨[.assign ⟨"i", {}⟩ (.int 0 {}) {}], {}⟩)) {}
        [9223372036854775806, 9223372036854775807] m' ∧
      execStmt ⟨runBody 0 0, 0⟩ (.range ⟨"i", {}⟩ (.int 9223372036854775806 {})
        (.int 9223372036854775807 {}) (some ⟨[.assign ⟨"i", {}⟩ (.int 0 {}) {}], {}⟩) {}) {} =
        .ok () m') ∧
    (between 9223372036854775807 (-9223372036854775808)).length = 18446744073709551616 ∧
    (begun "i" 9223372036854775807 {}).arena.lookup Arena.global "i" =
      .ok (.int 9223372036854775807) ∧
    execStmt ⟨runBody 0 0, 0⟩ (.range ⟨"i", {}⟩ (.int 9223372036854775807 {})
      (.int (-9223372036854775808) {}) (some ⟨[.leave {}], {}⟩) {}) {} =
      .ok () (begun "i" 9223372036854775807 {}) := by
  obtain ⟨-, hgoes, -⟩ := range_visits 0 0 ⟨"i", {}⟩ (.int 9223372036854775806 {})
    (.int 9223372036854775807 {}) (some ⟨[.assign ⟨"i", {}⟩ (.int 0 {}) {}], {}⟩) {} {} {} {} _ _
    rfl rfl
  obtain ⟨⟨hlength, -⟩, -, hhalts⟩ := range_visits 0 0 ⟨"i", {}⟩ (.int 9223372036854775807 {})
    (.int (-9223372036854775808) {}) (some ⟨[.leave {}], {}⟩) {} {} {} {} _ _ rfl rfl
  obtain ⟨hvalue, hbreak⟩ := hhalts [] _ _ {} rfl .none
  refine ⟨hgoes fun ran n rest m' _ hran => ?_, hlength.trans (by decide), ?_, ?_⟩
  · have hraised := hran.isRaised_eq rfl
    have hends : m'.flags.endsLoop = false := by
      simp only [Flags.isRaised, Bool.or_eq_false_iff] at hraised
      simp [Flags.endsLoop, hraised]
    simp [Halts, execBody?, execBody, execAll, execStmt, execSimple, evalExpr, eval, settled,
      Eval.settle, begun, Eval.define, Step.gets, Step.modify, hraised, hends]
  · exact hvalue (by unfold IsLive; decide)
  · exact hbreak rfl

end Machine

end Kotoba
