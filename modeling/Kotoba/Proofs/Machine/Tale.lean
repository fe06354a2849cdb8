import Kotoba.Proofs.Machine.Forgetful
import Kotoba.Proofs.Machine.Served

/-! How records of calls are built. A call opens with its parameters bound in a scope of its own.
It is answered at once if its key is remembered; otherwise its body runs, with calls of its own,
and what it returns is remembered. So a record tells at every moment what is remembered. -/
namespace Kotoba

namespace Machine

/-- What is remembered when one more thing has happened. -/
def recallAfter (memory : Recall) (moment : Moment) : Recall :=
  match moment.note with
  | .defines _ => memory.clear
  | .answers _ key _ =>
    match memory.get? key with
    | some (_, memory) => memory
    | none => memory
  | .returns _ key v => memory.add key v
  | _ => memory

/-- What is remembered at every moment of a record is what comes of the moments before. -/
def Linked : Recall → List Moment → Prop
  | _, [] => True
  | memory, moment :: rest =>
    moment.machine.memory = recallAfter memory moment ∧ Linked moment.machine.memory rest

theorem Linked.memory_eq {memory : Recall} {past after : List Moment} {moment : Moment}
    (h : Linked memory (past ++ moment :: after)) :
    moment.machine.memory = (past ++ [moment]).foldl recallAfter memory := by
  induction past generalizing memory with
  | nil => exact h.1
  | cons first past ih =>
    rw [List.cons_append, List.foldl_cons, ← h.1]
    exact ih h.2

theorem Linked.tail {memory : Recall} {past after : List Moment} {moment : Moment}
    (h : Linked memory (past ++ moment :: after)) : Linked moment.machine.memory after := by
  induction past generalizing memory with
  | nil => exact h.2
  | cons first past ih => exact ih h.2

theorem Linked.append {memory : Recall} {record more : List Moment} (h : Linked memory record)
    (h' : Linked (record.foldl recallAfter memory) more) : Linked memory (record ++ more) := by
  induction record generalizing memory with
  | nil => exact h'
  | cons moment rest ih =>
    refine ⟨h.1, ih h.2 ?_⟩
    rw [h.1]
    exact h'

/-- Whether a call begins with a note. -/
def Note.isCall : Note → Bool
  | calls .. => true
  | _ => false

/-- The function, the key and the value with which a call ends. -/
def Note.result? : Note → Option (Function × Digest × Value)
  | answers f key v | returns f key v => some (f, key, v)
  | _ => none

/-- A record from the moment on at which a call ends that was under way when the record began, if
so many more calls were under way as well. It is empty if there is no such moment. -/
def ending : (calls : Nat) → List Moment → List Moment
  | _, [] => []
  | calls, moment :: rest =>
    if moment.note.isCall then ending (calls + 1) rest
    else if moment.note.result?.isSome then
      match calls with
      | 0 => moment :: rest
      | calls + 1 => ending calls rest
    else ending calls rest

section Endings

variable {moment : Moment} {rest : List Moment} {calls : Nat}

theorem ending_call (h : moment.note.isCall) :
    ending calls (moment :: rest) = ending (calls + 1) rest := by
  simp [ending, h]

private theorem not_isCall (h : moment.note.result?.isSome) : ¬ moment.note.isCall := by
  cases hn : moment.note with
  | answers | returns => exact Bool.false_ne_true
  | starts | ends | gives | executes | calls | defines =>
    rw [hn] at h
    cases h

theorem ending_result_zero (h : moment.note.result?.isSome) :
    ending 0 (moment :: rest) = moment :: rest := by
  simp [ending, not_isCall h, h]

theorem ending_result_succ (h : moment.note.result?.isSome) :
    ending (calls + 1) (moment :: rest) = ending calls rest := by
  simp [ending, not_isCall h, h]

theorem ending_aside (hcall : moment.note.isCall = false) (hresult : moment.note.result? = none) :
    ending calls (moment :: rest) = ending calls rest := by
  simp [ending, hcall, hresult]

/-- What comes after the end of a call does not matter for where it ends. -/
theorem ending_append (more : List Moment) (h : ending calls rest ≠ []) :
    ending calls (rest ++ more) = ending calls rest ++ more := by
  fun_induction ending calls rest with
  | case1 => exact absurd rfl h
  | case2 calls moment rest hcall ih => rw [List.cons_append, ending_call hcall, ih h]
  | case3 moment rest hcall hresult =>
    exact ending_result_zero hresult
  | case4 moment rest hcall hresult calls ih =>
    rw [List.cons_append, ending_result_succ hresult, ih h]
  | case5 calls moment rest hcall hresult ih =>
    rw [List.cons_append, ending_aside (by simpa using hcall) (by simpa using hresult), ih h]

end Endings

/-- A call has been set up. Its parameters are bound in a scope of its own, and the digest of what
is in that scope is its key. -/
def Opens (moment : Moment) (f : Function) (args : List Value) (key : Digest) : Prop :=
  ∃ scope s, moment.note = .calls f args scope ∧ moment.machine.arena.scope? scope = some s ∧
    s.name = f.name ∧ s.symbols = bound (f.params.zip args) [] ∧
    key = .ofBytes (s.content moment.machine.store)

/-- The record of a computation, from what is remembered before it to what is remembered after it.
If it is not a whole one, calls are under way when it stops. -/
inductive Tale : (whole : Bool) → Recall → List Moment → Recall → Prop
  | done {whole : Bool} {memory : Recall} : Tale whole memory [] memory
  | aside {whole : Bool} {memory memory' : Recall} {moment : Moment} {rest : List Moment}
    (hnote : moment.note.isOnWay) (hmemory : moment.machine.memory = memory)
    (h : Tale whole memory rest memory') : Tale whole memory (moment :: rest) memory'
  | defines {whole : Bool} {memory memory' : Recall} {moment : Moment} {rest : List Moment}
    {d : FuncDef} (hnote : moment.note = .defines d)
    (hmemory : moment.machine.memory = memory.clear) (h : Tale whole memory.clear rest memory') :
    Tale whole memory (moment :: rest) memory'
  | answered {whole : Bool} {memory found memory' : Recall} {opening closing : Moment}
    {rest : List Moment} {f : Function} {args : List Value} {key : Digest} {v : Value}
    (hopens : Opens opening f args key) (hmemory : opening.machine.memory = memory)
    (hfound : memory.get? key = some (v, found)) (hnote : closing.note = .answers f key v)
    (hmemory' : closing.machine.memory = found) (h : Tale whole found rest memory') :
    Tale whole memory (opening :: closing :: rest) memory'
  | ran {whole : Bool} {memory inner memory' : Recall} {opening closing : Moment}
    {within rest : List Moment} {f : Function} {args : List Value} {key : Digest} {v : Value}
    (hopens : Opens opening f args key) (hmemory : opening.machine.memory = memory)
    (hmissed : memory.get? key = none) (hwithin : Tale true memory within inner)
    (hnote : closing.note = .returns f key v)
    (hmemory' : closing.machine.memory = inner.add key v)
    (h : Tale whole (inner.add key v) rest memory') :
    Tale whole memory (opening :: (within ++ closing :: rest)) memory'
  | stopped {memory memory' : Recall} {opening : Moment} {within : List Moment} {f : Function}
    {args : List Value} {key : Digest} (hopens : Opens opening f args key)
    (hmemory : opening.machine.memory = memory) (hmissed : memory.get? key = none)
    (hwithin : Tale false memory within memory') : Tale false memory (opening :: within) memory'

/-- A call ends with the result that is remembered, or with one that is to be remembered. -/
def Closes (opening closing : Moment) (f : Function) (key : Digest) : Prop :=
  ∃ v, (closing.note = .answers f key v ∧
      opening.machine.memory.get? key = some (v, closing.machine.memory)) ∨
    (closing.note = .returns f key v ∧ opening.machine.memory.get? key = none ∧
      ∃ memory : Recall, closing.machine.memory = memory.add key v)

section Notes

variable {moment : Moment}

theorem isCall_of_isOnWay (h : moment.note.isOnWay) : moment.note.isCall = false := by
  cases hn : moment.note <;> rw [hn] at h <;> first | rfl | cases h

theorem result?_of_isOnWay (h : moment.note.isOnWay) : moment.note.result? = none := by
  cases hn : moment.note <;> rw [hn] at h <;> first | rfl | cases h

theorem recallAfter_of_isOnWay (h : moment.note.isOnWay) (memory : Recall) :
    recallAfter memory moment = memory := by
  unfold recallAfter
  cases hn : moment.note <;> rw [hn] at h <;> first | rfl | cases h

variable {f : Function} {args : List Value} {key : Digest}

theorem Opens.isCall (h : Opens moment f args key) : moment.note.isCall := by
  obtain ⟨scope, s, hnote, -⟩ := h
  rw [hnote]
  rfl

theorem Opens.recallAfter_eq (h : Opens moment f args key) (memory : Recall) :
    recallAfter memory moment = memory := by
  obtain ⟨scope, s, hnote, -⟩ := h
  rw [recallAfter, hnote]

end Notes

namespace Tale

variable {whole : Bool} {memory middle memory' : Recall} {record more : List Moment}

theorem still (h : memory' = memory) : Tale whole memory [] memory' := by
  rw [h]
  exact .done

/-- A whole record can be gone on with. -/
theorem append (h : Tale true memory record middle) (h' : Tale whole middle more memory') :
    Tale whole memory (record ++ more) memory' := by
  generalize hw : true = w at h
  induction h with
  | done => exact h'
  | aside hnote hmemory _ ih => exact .aside hnote hmemory (ih h' hw)
  | defines hnote hmemory _ ih => exact .defines hnote hmemory (ih h' hw)
  | answered hopens hmemory hfound hnote hmemory' _ ih =>
    exact .answered hopens hmemory hfound hnote hmemory' (ih h' hw)
  | ran hopens hmemory hmissed hwithin hnote hmemory' _ _ ih =>
    rw [List.cons_append, List.append_assoc, List.cons_append]
    exact .ran hopens hmemory hmissed hwithin hnote hmemory' (ih h' hw)
  | stopped => cases hw

theorem part (h : Tale whole memory record memory') : Tale false memory record memory' := by
  induction h with
  | done => exact .done
  | aside hnote hmemory _ ih => exact .aside hnote hmemory ih
  | defines hnote hmemory _ ih => exact .defines hnote hmemory ih
  | answered hopens hmemory hfound hnote hmemory' _ ih =>
    exact .answered hopens hmemory hfound hnote hmemory' ih
  | ran hopens hmemory hmissed hwithin hnote hmemory' _ _ ih =>
    exact .ran hopens hmemory hmissed hwithin hnote hmemory' ih
  | stopped hopens hmemory hmissed hwithin _ => exact .stopped hopens hmemory hmissed hwithin

/-- In a record no call ends that was under way before, and if it is a whole one, all calls end
that begin in it. -/
theorem ending_append (h : Tale whole memory record memory') :
    ∃ stopped, (whole → stopped = 0) ∧
      ∀ calls more, ending calls (record ++ more) = ending (calls + stopped) more := by
  induction h with
  | done => exact ⟨0, fun _ => rfl, fun _ _ => rfl⟩
  | aside hnote _ _ ih =>
    obtain ⟨stopped, hwhole, hending⟩ := ih
    refine ⟨stopped, hwhole, fun calls more => ?_⟩
    rw [List.cons_append, ending_aside (isCall_of_isOnWay hnote) (result?_of_isOnWay hnote),
      hending]
  | defines hnote _ _ ih =>
    obtain ⟨stopped, hwhole, hending⟩ := ih
    refine ⟨stopped, hwhole, fun calls more => ?_⟩
    rw [List.cons_append, ending_aside (by rw [hnote]; rfl) (by rw [hnote]; rfl), hending]
  | answered hopens _ _ hnote _ _ ih =>
    obtain ⟨stopped, hwhole, hending⟩ := ih
    refine ⟨stopped, hwhole, fun calls more => ?_⟩
    rw [List.cons_append, List.cons_append, ending_call hopens.isCall,
      ending_result_succ (by rw [hnote]; rfl), hending]
  | ran hopens _ _ _ hnote _ _ ihwithin ih =>
    obtain ⟨_, hwithin, hendingwithin⟩ := ihwithin
    obtain ⟨stopped, hwhole, hending⟩ := ih
    refine ⟨stopped, hwhole, fun calls more => ?_⟩
    rw [List.cons_append, ending_call hopens.isCall, List.append_assoc, List.cons_append,
      hendingwithin, hwithin rfl, Nat.add_zero, ending_result_succ (by rw [hnote]; rfl), hending]
  | stopped hopens _ _ _ ih =>
    obtain ⟨stopped, -, hending⟩ := ih
    refine ⟨stopped + 1, fun hw => absurd hw Bool.false_ne_true, fun calls more => ?_⟩
    rw [List.cons_append, ending_call hopens.isCall, hending]
    congr 1
    omega

/-- What is remembered can be told from the record. -/
theorem linked (h : Tale whole memory record memory') :
    Linked memory record ∧ record.foldl recallAfter memory = memory' := by
  induction h with
  | done => exact ⟨trivial, rfl⟩
  | @aside _ memory _ moment _ hnote hmemory _ ih =>
    have hafter : recallAfter memory moment = memory := recallAfter_of_isOnWay hnote memory
    rw [Linked, List.foldl_cons, hafter, hmemory]
    exact ⟨⟨rfl, ih.1⟩, ih.2⟩
  | @defines _ memory _ moment _ d hnote hmemory _ ih =>
    have hafter : recallAfter memory moment = memory.clear := by rw [recallAfter, hnote]
    rw [Linked, List.foldl_cons, hafter, hmemory]
    exact ⟨⟨rfl, ih.1⟩, ih.2⟩
  | @answered _ memory found _ opening closing _ f args key v hopens hmemory hfound hnote hmemory'
      _ ih =>
    have hopening : recallAfter memory opening = memory := hopens.recallAfter_eq memory
    have hclosing : recallAfter memory closing = found := by
      rw [recallAfter, hnote]
      dsimp only
      rw [hfound]
    rw [Linked, Linked, List.foldl_cons, List.foldl_cons, hopening, hmemory, hclosing, hmemory']
    exact ⟨⟨rfl, rfl, ih.1⟩, ih.2⟩
  | @ran _ memory inner _ opening closing _ _ f args key v hopens hmemory _ _ hnote hmemory' _
      ihwithin ih =>
    have hopening : recallAfter memory opening = memory := hopens.recallAfter_eq memory
    have hclosing : recallAfter inner closing = inner.add key v := by rw [recallAfter, hnote]
    rw [Linked, List.foldl_cons, List.foldl_append, List.foldl_cons, hopening, hmemory,
      ihwithin.2, hclosing]
    refine ⟨⟨rfl, ihwithin.1.append ?_⟩, ih.2⟩
    rw [ihwithin.2, Linked, hclosing, hmemory']
    exact ⟨rfl, ih.1⟩
  | @stopped memory _ opening _ _ _ _ hopens hmemory _ _ ih =>
    have hopening : recallAfter memory opening = memory := hopens.recallAfter_eq memory
    rw [Linked, List.foldl_cons, hopening, hmemory]
    exact ⟨⟨rfl, ih.1⟩, ih.2⟩

/-- A call in a record that begins with something else comes later. -/
private theorem later_of_not_isCall {moment opening : Moment} {rest past after : List Moment}
    (hrecord : moment :: rest = past ++ opening :: after) (hcall : opening.note.isCall)
    (hmoment : moment.note.isCall = false) : ∃ past', rest = past' ++ opening :: after := by
  cases past with
  | nil =>
    obtain ⟨rfl, -⟩ := List.cons.inj hrecord
    rw [hmoment] at hcall
    cases hcall
  | cons first past => exact ⟨past, (List.cons.inj hrecord).2⟩

/-- A call that begins in a record ends as calls do, or is under way when the record stops. -/
theorem call (h : Tale whole memory record memory') {past after : List Moment} {opening : Moment}
    (hrecord : record = past ++ opening :: after) (hcall : opening.note.isCall) :
    ∃ f args key, Opens opening f args key ∧
      ((∃ closing rest, Closes opening closing f key ∧
          ∀ more, ending 0 (after ++ more) = closing :: (rest ++ more)) ∨
        whole = false ∧ ∃ stopped, ∀ more, ending 0 (after ++ more) = ending stopped more) := by
  induction h generalizing past after with
  | done => cases past <;> cases hrecord
  | aside hnote _ _ ih =>
    obtain ⟨past', hrest⟩ := later_of_not_isCall hrecord hcall (isCall_of_isOnWay hnote)
    exact ih hrest
  | defines hnote _ _ ih =>
    obtain ⟨past', hrest⟩ := later_of_not_isCall hrecord hcall (by rw [hnote]; rfl)
    exact ih hrest
  | @answered _ _ _ _ opening closing rest f args key v hopens hmemory hfound hnote hmemory' _ ih =>
    cases past with
    | nil =>
      obtain ⟨rfl, rfl⟩ := List.cons.inj hrecord
      refine ⟨f, args, key, hopens, .inl ⟨closing, rest, ⟨v, .inl ⟨hnote, ?_⟩⟩, fun more => ?_⟩⟩
      · rw [hmemory, hfound, hmemory']
      · exact ending_result_zero (by rw [hnote]; rfl)
    | cons first past =>
      obtain ⟨past', hrest⟩ := later_of_not_isCall (List.cons.inj hrecord).2 hcall
        (by rw [hnote]; rfl)
      exact ih hrest
  | @ran _ _ inner _ opening closing within rest f args key v hopens hmemory hmissed hwithin hnote
      hmemory' _ ihwithin ih =>
    have hclosing : closing.note.isCall = false := by
      rw [hnote]
      rfl
    cases past with
    | nil =>
      obtain ⟨rfl, rfl⟩ := List.cons.inj hrecord
      obtain ⟨_, hwhole, hending⟩ := hwithin.ending_append
      refine ⟨f, args, key, hopens, .inl ⟨closing, rest,
        ⟨v, .inr ⟨hnote, by rw [hmemory, hmissed], inner, hmemory'⟩⟩, fun more => ?_⟩⟩
      rw [List.append_assoc, List.cons_append, hending, hwhole rfl,
        ending_result_zero (by rw [hnote]; rfl)]
    | cons first past =>
      obtain ⟨middle, rfl, hmiddle⟩ | ⟨middle, hmiddle, hafter⟩ :=
        List.append_eq_append_iff.mp (List.cons.inj hrecord).2
      · -- the call begins when this one ended
        obtain ⟨past', hrest⟩ := later_of_not_isCall hmiddle hcall hclosing
        exact ih hrest
      · -- the call begins within this one, so it ends there
        cases middle with
        | nil =>
          obtain ⟨rfl, -⟩ := List.cons.inj hafter
          rw [hclosing] at hcall
          cases hcall
        | cons _ middle =>
          rw [List.cons_append] at hafter
          obtain ⟨rfl, rfl⟩ := List.cons.inj hafter
          obtain ⟨g, args', key', hopens', hends | ⟨hwhole, -⟩⟩ := ihwithin hmiddle
          · obtain ⟨closing', rest', hcloses, hending⟩ := hends
            refine ⟨g, args', key', hopens', .inl ⟨closing', rest' ++ closing :: rest, hcloses,
              fun more => ?_⟩⟩
            rw [List.append_assoc, hending, List.append_assoc]
          · cases hwhole
  | @stopped _ _ opening within f args key hopens hmemory hmissed hwithin ih =>
    cases past with
    | nil =>
      obtain ⟨rfl, rfl⟩ := List.cons.inj hrecord
      obtain ⟨stopped, -, hending⟩ := hwithin.ending_append
      exact ⟨f, args, key, hopens, .inr ⟨rfl, 0 + stopped, hending 0⟩⟩
    | cons first past => exact ih (List.cons.inj hrecord).2

end Tale

/-- What happens in a session: the records of entries one after the other. The calls that are under
way when one stops are dropped. -/
inductive Saga : Recall → List Moment → Prop
  | nil {memory : Recall} : Saga memory []
  | cons {memory memory' : Recall} {record rest : List Moment}
    (h : Tale false memory record memory') (hrest : Saga memory' rest) :
    Saga memory (record ++ rest)

namespace Saga

variable {memory : Recall} {happened : List Moment}

/-- No call ends in a session that was under way before. -/
theorem ending_eq_nil (h : Saga memory happened) (calls : Nat) : ending calls happened = [] := by
  induction h generalizing calls with
  | nil => rfl
  | cons h _ ih =>
    obtain ⟨stopped, -, hending⟩ := h.ending_append
    rw [hending, ih]

theorem linked (h : Saga memory happened) : Linked memory happened := by
  induction h with
  | nil => trivial
  | cons h _ ih =>
    obtain ⟨hrecord, hafter⟩ := h.linked
    exact hrecord.append (hafter ▸ ih)

/-- A call of a session that ends, ends as calls do. -/
theorem call (h : Saga memory happened) {past after rest : List Moment} {opening closing : Moment}
    (hhappened : happened = past ++ opening :: after) (hcall : opening.note.isCall)
    (hending : ending 0 after = closing :: rest) :
    ∃ f args key, Opens opening f args key ∧ Closes opening closing f key := by
  induction h generalizing past with
  | nil => cases past <;> cases hhappened
  | @cons _ _ record more h hmore ih =>
    obtain ⟨middle, rfl, hmiddle⟩ | ⟨middle, hmiddle, hafter⟩ :=
      List.append_eq_append_iff.mp hhappened
    · exact ih hmiddle
    · cases middle with
      | nil => exact ih (show more = [] ++ opening :: after from hafter.symm)
      | cons _ middle =>
        rw [List.cons_append] at hafter
        obtain ⟨rfl, rfl⟩ := List.cons.inj hafter
        obtain ⟨f, args, key, hopens, hends | ⟨-, stopped, hnone⟩⟩ := h.call hmiddle hcall
        · obtain ⟨closing', rest', hcloses, hends⟩ := hends
          rw [hends] at hending
          obtain ⟨rfl, -⟩ := List.cons.inj hending
          exact ⟨f, args, key, hopens, hcloses⟩
        · rw [hnone, hmore.ending_eq_nil] at hending
          cases hending

end Saga

/-- An outcome as in `P` that comes with a record built as those of calls are. -/
def Told {α : Type} (P : α → Prop) (memory : Recall) :
    Outcome Machine Failure α × List Moment → Prop
  | (.ok a m, record) => P a ∧ Tale true memory record m.memory
  | (.error _ m, record) => Tale false memory record m.memory
  | (.exhausted, record) => ∃ memory', Tale false memory record memory'

/-- Computations whose outcomes are told by their records. -/
def Tells {α : Type} (P : α → Prop) (x : Recorded α) : Prop := ∀ m, Told P m.memory (x m)

namespace Tells

variable {α β : Type} {P : α → Prop} {Q : β → Prop}

theorem pure {a : α} (ha : P a) : Tells P (Pure.pure a) := fun _ => ⟨ha, .done⟩

theorem bind {x : Recorded α} {f : α → Recorded β} (hx : Tells P x)
    (hf : ∀ a, P a → Tells Q (f a)) : Tells Q (x >>= f) := by
  intro m
  have hxm := hx m
  rw [Recorded.bind_apply]
  generalize x m = result at hxm ⊢
  rcases result with ⟨_ | _ | _, record⟩
  case ok a m₁ =>
    obtain ⟨ha, htale⟩ := hxm
    have hfm := hf a ha m₁
    dsimp only
    generalize f a m₁ = result at hfm ⊢
    rcases result with ⟨_ | _ | _, more⟩
    case ok b m' => exact ⟨hfm.1, htale.append hfm.2⟩
    case error e m' => exact htale.append hfm
    case exhausted =>
      obtain ⟨memory, hfm⟩ := hfm
      exact ⟨memory, htale.append hfm⟩
  case error e m' => exact hxm
  case exhausted => exact hxm

/-- A step that does not touch the memory. -/
theorem lift {x : Eval α} (hx : Step.Keeps (·.memory) x) (hP : ∀ m a m', x m = .ok a m' → P a) :
    Tells P (recorded.lift x) := by
  intro m
  have hm := hx m
  simp only [recorded]
  cases hxm : x m with
  | ok a m' =>
    rw [hxm] at hm
    exact ⟨hP m a m' hxm, .still hm⟩
  | error e m' =>
    rw [hxm] at hm
    exact .still hm
  | exhausted => exact ⟨_, .done⟩

theorem note {n : Note} (hn : n.isOnWay) : Tells (fun _ => True) (recorded.note n) :=
  fun _ => ⟨trivial, .aside hn rfl .done⟩

end Tells

def telling : Bridge Recorded Recorded where
  Rel P x _ := Tells P x
  pure ha := Tells.pure ha
  bind hx hf := Tells.bind hx hf

section Calls

private theorem opens_entered (b : Machine) (f : Function) (args : List Value) (span : Span) :
    Opens ⟨.calls f args b.arena.top, entered b ⟨f.name, span⟩ (bound (f.params.zip args) [])⟩ f args
      ((entered b ⟨f.name, span⟩ (bound (f.params.zip args) [])).arena.digest b.store
        b.arena.top) := by
  have hscope : (entered b ⟨f.name, span⟩ (bound (f.params.zip args) [])).arena.scope?
      b.arena.top = _ := Arena.scope?_above_top
  refine ⟨_, _, rfl, hscope, rfl, rfl, ?_⟩
  rw [Arena.digest, hscope]
  rfl

private theorem recalled_cases (key : Digest) (m : Machine) :
    (∃ v m', recalled? key m = .ok (some v) m' ∧ m.memory.get? key = some (v, m'.memory)) ∨
      ∃ m', recalled? key m = .ok none m' ∧ m.memory.get? key = none ∧ m'.memory = m.memory := by
  cases hfound : m.memory.get? key with
  | some found =>
    left
    exact ⟨found.1, _, by rw [recalled?, Step.modifyGet, hfound], rfl⟩
  | none =>
    right
    refine ⟨_, by rw [recalled?, Step.modifyGet, hfound], rfl, ?_⟩
    split <;> rfl

private theorem trace_apply (text : Bytes) (m : Machine) :
    ∃ m', Eval.trace text m = .ok () m' ∧ m'.memory = m.memory := by
  obtain ⟨log, hlog⟩ := trace_eq text m
  exact ⟨_, hlog, rfl⟩

variable {opening : Moment} {f : Function} {args : List Value} {key : Digest}

/-- A call that is answered ends at once. -/
private theorem told_answered {m : Machine} {v : Value} (hopens : Opens opening f args key)
    (hfound : opening.machine.memory.get? key = some (v, m.memory)) (text : Bytes) (scope : Int) :
    let ended := (do
      recorded.lift (Eval.remark text)
      recorded.lift (leave scope)
      recorded.note (.answers f key v)
      pure v : Recorded Value) m
    Told (fun _ => True) opening.machine.memory (ended.1, opening :: ended.2) := by
  obtain ⟨m', hended, hm'⟩ : ∃ m', (do
      recorded.lift (Eval.remark text)
      recorded.lift (leave scope)
      recorded.note (.answers f key v)
      pure v : Recorded Value) m = (.ok v m', [⟨.answers f key v, m'⟩]) ∧ m'.memory = m.memory := by
    refine ⟨_, rfl, ?_⟩
    dsimp only
    split <;> rfl
  rw [hended]
  exact ⟨trivial, .answered hopens rfl hfound rfl hm' (.still hm')⟩

/-- A call that is not answered runs the body. If it comes to an end, its result is remembered. -/
private theorem told_missed {run : Recorded Value} {m : Machine} (hopens : Opens opening f args key)
    (hmissed : opening.machine.memory.get? key = none)
    (hmemory : m.memory = opening.machine.memory) (hrun : Tells (fun _ => True) run) (text : Bytes)
    (scope : Int) :
    let ended := (do
      recorded.lift (Eval.trace text)
      let v ← run
      recorded.lift (leave scope)
      recorded.lift (remember key v)
      recorded.note (.returns f key v)
      pure v : Recorded Value) m
    Told (fun _ => True) opening.machine.memory (ended.1, opening :: ended.2) := by
  obtain ⟨m₀, htrace, hm₀⟩ := trace_apply text m
  rw [lift_bind, htrace]
  have hin := hrun m₀
  rw [hm₀, hmemory] at hin
  dsimp only
  rw [Recorded.bind_apply]
  generalize run m₀ = result at hin ⊢
  rcases result with ⟨_ | _ | _, record⟩
  case ok v m₁ => exact ⟨trivial, .ran hopens rfl hmissed hin.2 rfl rfl .done⟩
  case error e m' => exact .stopped hopens rfl hmissed hin
  case exhausted =>
    obtain ⟨memory, hin⟩ := hin
    exact ⟨memory, .stopped hopens rfl hmissed hin⟩

/-- A call is answered, or it runs the body of the function. -/
theorem tells_call {within : Int → Option Body → Recorded Value}
    (hw : ∀ scope body, Tells (fun _ => True) (within scope body)) (f : Function)
    (args : List Value) (span : Span) :
    Tells (fun _ => True) (recorded.call within f args span) := by
  intro b
  unfold Medium.call
  rw [lift_bind, enter_apply]
  dsimp only
  rw [lift_bind]
  obtain ⟨-, hbind⟩ | ⟨-, e, m, hbind⟩ :=
    bindParams_entered f.name span b ⟨f.name, span⟩ (f.params.zip args) []
  · have hopens := opens_entered b f args span
    rw [hbind]
    dsimp only
    rw [note_bind, lift_bind]
    dsimp only [Step.gets]
    rw [lift_bind]
    dsimp only [Step.gets]
    rw [lift_bind]
    obtain ⟨v, m, hfound, hget⟩ | ⟨m, hmissed, hget, hmemory⟩ := recalled_cases _
      (entered b ⟨f.name, span⟩ (bound (f.params.zip args) []))
    · rw [hfound]
      exact told_answered hopens hget _ _
    · rw [hmissed]
      exact told_missed hopens hget hmemory (hw _ _) _ _
  · have hkeeps := remote_memory.bindParams f.name b.arena.top span (f.params.zip args)
      (entered b ⟨f.name, span⟩ [])
    rw [hbind] at hkeeps
    rw [hbind]
    exact .still hkeeps

private theorem tells_within {run : Option Body → Recorded Unit}
    (hr : ∀ body, Tells (fun _ => True) (run body)) (scope : Int) (body : Option Body) :
    Tells (fun _ => True) (recorded.within run scope body) :=
  Tells.bind (P := fun _ => True) (.lift (.modifyGet fun _ => rfl) fun _ _ _ _ => trivial)
    fun _ _ => Tells.bind (hr body) fun _ _ =>
      .lift (.modifyGet fun _ => rfl) fun _ _ _ _ => trivial

private theorem tells_act {α : Type} (a : Act α) (ha : a.Allowed fun _ => True) :
    Tells (a.Gives fun _ => True) (recorded.lift a.perform) :=
  .lift (Act.keeps_memory ha) fun _ _ _ h => Act.gives_of_ok h

theorem lockstep_telling (rounds depth : Nat) :
    Lockstep telling (recorded.host rounds depth) (recorded.host rounds depth) (fun _ => True)
      (fun _ => True) := by
  induction depth with
  | zero =>
    exact .of_call (fun _ => trivial) (fun _ => trivial) (fun _ hn => .note hn)
      (fun a ha _ => tells_act a ha) fun f args span _ _ _ => tells_call
        (tells_within fun _ => .lift .exhausted fun _ _ _ h => nomatch h) f args span
  | succ depth ih =>
    exact .of_call (fun _ => trivial) (fun _ => trivial) (fun _ hn => .note hn)
      (fun a ha _ => tells_act a ha) fun f args span _ _ _ => tells_call
        (tells_within fun body => ih.body? rounds body fun _ _ => trivial) f args span

private theorem tells_defineFunction (f : FuncDef) :
    Tells (fun _ => True)
      (do recorded.lift (defineFunction f); recorded.note (.defines f) : Recorded Unit) := by
  intro m
  have hmemory : ∃ m', defineFunction f m = .ok () m' ∧ m'.memory = m.memory.clear := by
    obtain ⟨m₀, htrace, hm₀⟩ := trace_apply (Bytes.ofString s!"define {f.name.name}/{
      f.params.length}") m
    refine ⟨{ m₀ with
      arena := m₀.arena.define m₀.scope f.name.name (.function (.ofDef f))
      memory := m₀.memory.clear }, ?_, by rw [← hm₀]⟩
    unfold defineFunction
    rw [Step.bind_apply, htrace]
    rfl
  obtain ⟨m', hdefine, hm'⟩ := hmemory
  rw [lift_bind, hdefine]
  exact ⟨trivial, .defines rfl hm' (.still hm')⟩

theorem walk_tells (rounds : Nat) (node : Node) : Tells (fun _ => True) (walk rounds node) :=
  fun m => (lockstep_telling rounds (m.settings.maxDepth + 1)).node tells_defineFunction rounds node m

end Calls

/-- What is remembered when a tree has been interpreted. -/
theorem interpret_tale (rounds : Nat) (node : Node) (m : Machine) :
    ∃ memory, Tale false m.memory (record rounds node m) memory ∧
      match interpret rounds node m with
      | .ok _ m' => m'.memory = memory
      | .error _ m' => m'.memory = memory
      | .exhausted => True := by
  have hwalk := walk_tells rounds node m
  rw [← concluded_walk, record]
  generalize walk rounds node m = result at hwalk ⊢
  rcases result with ⟨_ | _ | _, happened⟩
  case ok v m' =>
    refine ⟨m'.memory, hwalk.2.part, ?_⟩
    obtain ⟨w, hend⟩ | ⟨e, hend⟩ := conclude_cases node.span v m' <;> simp [concluded, hend]
  case error e m' => exact ⟨m'.memory, hwalk, rfl⟩
  case exhausted =>
    obtain ⟨memory, hwalk⟩ := hwalk
    exact ⟨memory, hwalk, trivial⟩

end Machine

namespace Session

open Machine (Moment Tale Saga)

private theorem enter_tale (rounds : Nat) (r : Reading) (entry : Bytes) (m : Machine) :
    ∃ memory, Tale false m.memory (record rounds r entry m) memory ∧
      ((∃ m', enter rounds r entry m = (.endless, m')) ∨
        (enter rounds r entry m).2.memory = memory) := by
  simp only [record, enter, run]
  cases Syntax.parseEntry r.limits entry with
  | ok node s =>
    cases node with
    | none => exact ⟨m.memory, .done, .inr rfl⟩
    | some node =>
      obtain ⟨memory, htale, hafter⟩ := Machine.interpret_tale rounds node (noteParse r s m)
      refine ⟨memory, htale, ?_⟩
      simp only [interpret]
      cases hi : Machine.interpret rounds node (noteParse r s m) with
      | ok v m' =>
        rw [hi] at hafter
        exact .inr hafter
      | error e m' =>
        rw [hi] at hafter
        exact .inr hafter
      | exhausted => exact .inl ⟨_, rfl⟩
  | error d s => exact ⟨m.memory, .done, .inr rfl⟩
  | exhausted => exact ⟨m.memory, .done, .inl ⟨_, rfl⟩⟩

theorem history_saga (rounds : Nat) (r : Reading) (entries : List Bytes) (m : Machine) :
    Saga m.memory (history rounds r entries m) := by
  induction entries generalizing m with
  | nil => exact .nil
  | cons entry rest ih =>
    obtain ⟨memory, htale, hafter⟩ := enter_tale rounds r entry m
    rw [history]
    refine .cons htale ?_
    rcases he : enter rounds r entry m with ⟨answer, m'⟩
    rw [he] at hafter
    cases answer with
    | endless => exact .nil
    | unparsed | failed | value =>
      obtain ⟨m'', hendless⟩ | hmemory := hafter
      · cases hendless
      · have hm' : m'.memory = memory := hmemory
        rw [← hm']
        exact ih m'

end Session

end Kotoba
