import Kotoba.Proofs.Machine.Keep
import Kotoba.Proofs.Machine.Record
import Kotoba.Session

/-! Where remembered results come from. Whatever a call is answered with was returned by the last
call that ran under the same key since a function was last defined. -/
namespace Kotoba

namespace Machine

/-- The function that last ran to its end under a key, and what it returned, after one more note.
A definition starts afresh. -/
def lastRunAfter (key : Digest) (last : Option (Function × Value)) (moment : Moment) :
    Option (Function × Value) :=
  match moment.note with
  | .defines _ => none
  | .returns f k v => if k = key then some (f, v) else last
  | _ => last

/-- The function that last ran to its end under a key since a function was last defined, and what
it returned. -/
def lastRun (key : Digest) (past : List Moment) : Option (Function × Value) :=
  past.foldl (lastRunAfter key) none

theorem lastRun_append_singleton (key : Digest) (past : List Moment) (moment : Moment) :
    lastRun key (past ++ [moment]) = lastRunAfter key (lastRun key past) moment := by
  simp [lastRun]

/-- Whether a note leaves earlier results under a key out of account. -/
def Note.replaces (key : Digest) : Note → Bool
  | .defines _ => true
  | .returns _ k _ => k == key
  | _ => false

/-- A value was returned by a call that ran a function to its end, and since then neither was a
function defined nor did another call end under the same key. -/
def RanLast (past : List Moment) (f : Function) (key : Digest) (v : Value) : Prop :=
  ∃ before m after, past = before ++ ⟨.returns f key v, m⟩ :: after ∧
    ∀ moment ∈ after, moment.note.replaces key = false

private theorem lastRunAfter_eq_some_iff {key : Digest} {last : Option (Function × Value)}
    {moment : Moment} {f : Function} {v : Value} :
    lastRunAfter key last moment = some (f, v) ↔
      moment.note = .returns f key v ∨ (moment.note.replaces key = false ∧ last = some (f, v)) := by
  unfold lastRunAfter
  cases moment.note with
  | returns g k w =>
    by_cases hk : k = key
    · simp [Note.replaces, hk]
    · simp [Note.replaces, hk]
  | _ => simp [Note.replaces]

private theorem ranLast_cons {key : Digest} {past : List Moment} {f : Function} {v : Value}
    {moment : Moment} :
    RanLast (moment :: past) f key v ↔ RanLast past f key v ∨
      (moment.note = .returns f key v ∧ ∀ later ∈ past, later.note.replaces key = false) := by
  constructor
  · rintro ⟨before, m, after, he, ha⟩
    cases before with
    | nil =>
      obtain ⟨rfl, rfl⟩ := List.cons.inj he
      exact .inr ⟨rfl, ha⟩
    | cons _ before =>
      obtain ⟨rfl, rfl⟩ := List.cons.inj he
      exact .inl ⟨before, m, after, rfl, ha⟩
  · rintro (⟨before, m, after, rfl, ha⟩ | ⟨hn, ha⟩)
    · exact ⟨moment :: before, m, after, rfl, ha⟩
    · exact ⟨[], moment.machine, past, by rw [← hn]; rfl, ha⟩

theorem lastRun_eq_some_iff {key : Digest} {past : List Moment} {f : Function} {v : Value} :
    lastRun key past = some (f, v) ↔ RanLast past f key v := by
  -- the run before the past is the one that counts if nothing in the past replaces it
  suffices h : ∀ last, past.foldl (lastRunAfter key) last = some (f, v) ↔
      RanLast past f key v ∨
        (last = some (f, v) ∧ ∀ later ∈ past, later.note.replaces key = false) by
    simpa [lastRun] using h none
  induction past with
  | nil => simp [RanLast]
  | cons moment past ih =>
    intro last
    rw [List.foldl_cons, ih, lastRunAfter_eq_some_iff, ranLast_cons]
    simp only [List.mem_cons, forall_eq_or_imp]
    grind

/-- Everything that is remembered was returned by the last call under its key. -/
def Traced (past : List Moment) (memory : Recall) : Prop :=
  ∀ key v, (key, v) ∈ memory.entries → ∃ f, lastRun key past = some (f, v)

/-- Every answer from memory in a record was returned by the last call under its key, when `past`
went before. -/
def Answered : (past record : List Moment) → Prop
  | _, [] => True
  | past, moment :: rest =>
    (∀ f key v, moment.note = .answers f key v → ∃ g, lastRun key past = some (g, v)) ∧
      Answered (past ++ [moment]) rest

theorem answered_append {past record more : List Moment} :
    Answered past (record ++ more) ↔ Answered past record ∧ Answered (past ++ record) more := by
  induction record generalizing past with
  | nil => simp [Answered]
  | cons moment rest ih => simp [Answered, ih, and_assoc]

/-- From memory and past as in `pre` a computation answers rightly and comes to memory and past as
in `post`. A failure leaves a memory that can be traced. -/
def Serves {α : Type} (pre : List Moment → Recall → Prop) (x : Recorded α)
    (post : α → List Moment → Recall → Prop) : Prop :=
  ∀ past m, pre past m.memory → Answered past (x m).2 ∧
    match (x m).1 with
    | .ok a m' => post a (past ++ (x m).2) m'.memory
    | .error _ m' => Traced (past ++ (x m).2) m'.memory
    | .exhausted => True

namespace Serves

variable {α β : Type} {pre : List Moment → Recall → Prop} {Q : α → List Moment → Recall → Prop}

theorem pure (a : α) : Serves (Q a) (Pure.pure a) Q := by
  intro past m h
  exact ⟨trivial, by simpa using h⟩

theorem bind {post : β → List Moment → Recall → Prop} {x : Recorded α} {f : α → Recorded β}
    (hx : Serves pre x Q) (hf : ∀ a, Serves (Q a) (f a) post) : Serves pre (x >>= f) post := by
  intro past m h
  have hxm := hx past m h
  rw [Recorded.bind_apply]
  generalize x m = result at hxm ⊢
  rcases result with ⟨_ | _ | _, record⟩
  case ok a m' =>
    obtain ⟨ha, hp⟩ := hxm
    obtain ⟨ha', hp'⟩ := hf a (past ++ record) m' hp
    refine ⟨answered_append.mpr ⟨ha, ha'⟩, ?_⟩
    rw [List.append_assoc] at hp'
    exact hp'
  case error e m' => exact hxm
  case exhausted => exact hxm

/-- A step that does not touch the memory. -/
theorem lift {inv : List Moment → Recall → Prop}
    (hi : ∀ past memory, inv past memory → Traced past memory) {x : Eval α}
    (hx : Step.Keeps (·.memory) x) : Serves inv (recorded.lift x) (fun _ => inv) := by
  intro past m h
  have hm := hx m
  refine ⟨trivial, ?_⟩
  simp only [recorded, List.append_nil]
  generalize x m = result at hm ⊢
  cases result with
  | ok a m' =>
    have hm : m'.memory = m.memory := hm
    simpa only [hm] using h
  | error e m' =>
    have hm : m'.memory = m.memory := hm
    simpa only [hm] using hi _ _ h
  | exhausted => trivial

/-- A step that only changes the memory, and does not fail. -/
theorem modifyGet {f : Machine → α × Machine}
    (hf : ∀ past m, pre past m.memory → Q (f m).1 past (f m).2.memory) :
    Serves pre (recorded.lift (Step.modifyGet f)) Q := by
  intro past m h
  refine ⟨trivial, ?_⟩
  simp only [recorded, List.append_nil]
  exact hf past m h

theorem modify {post : List Moment → Recall → Prop} {f : Machine → Machine}
    (hf : ∀ past m, pre past m.memory → post past (f m).memory) :
    Serves pre (recorded.lift (Step.modify f)) (fun _ => post) := by
  intro past m h
  refine ⟨trivial, ?_⟩
  simp only [recorded, List.append_nil]
  exact hf past m h

theorem note {post : List Moment → Recall → Prop} (n : Note)
    (hp : ∀ past memory m, pre past memory → post (past ++ [⟨n, m⟩]) memory)
    (ha : ∀ past memory f key v, pre past memory → n = .answers f key v →
      ∃ g, lastRun key past = some (g, v)) :
    Serves pre (recorded.note n) (fun _ => post) := by
  intro past m h
  exact ⟨⟨fun f key v hn => ha past m.memory f key v h hn, trivial⟩, hp past m.memory m h⟩

/-- A note that is neither an answer from memory nor a definition nor the end of a call. -/
theorem aside (n : Note) (hn : ∀ key last m, lastRunAfter key last ⟨n, m⟩ = last)
    (ha : ∀ f key v, n ≠ .answers f key v) : Serves Traced (recorded.note n) (fun _ => Traced) := by
  refine note n (fun past memory m h key v hv => ?_) fun _ _ f key v _ he => absurd he (ha f key v)
  rw [lastRun_append_singleton, hn]
  exact h key v hv

theorem mono {post : α → List Moment → Recall → Prop} {x : Recorded α} (hx : Serves pre x Q)
    (h : ∀ a past memory, Q a past memory → post a past memory) : Serves pre x post := by
  intro past m hp
  have hxm := hx past m hp
  generalize x m = result at hxm ⊢
  rcases result with ⟨_ | _ | _, record⟩
  case ok a m' => exact ⟨hxm.1, h a _ _ hxm.2⟩
  case error e m' => exact hxm
  case exhausted => exact hxm

end Serves

/-- Computations that keep the memory traceable. -/
def Trusty {α : Type} (P : α → Prop) (x : Recorded α) : Prop :=
  Serves Traced x fun a past memory => P a ∧ Traced past memory

theorem Trusty.serves {α : Type} {P : α → Prop} {x : Recorded α} (h : Trusty P x) :
    Serves Traced x fun _ => Traced := h.mono fun _ _ _ h => h.2

def trusty : Bridge Recorded Recorded where
  Rel P x _ := Trusty P x
  pure {α P a} ha := fun past m h => ⟨trivial, ha, by simpa using h⟩
  bind {α β P Q x y f g} hx hf := Serves.bind hx fun a past m h => hf a h.1 past m h.2

private theorem traced_of_nil {past : List Moment} {memory : Recall} (h : memory.entries = []) :
    Traced past memory := by
  intro key v hv
  rw [h] at hv
  simp at hv

private theorem traced_get? {past : List Moment} {memory memory' : Recall} {key : Digest}
    {v : Value} (h : Traced past memory) (hg : memory.get? key = some (v, memory')) :
    Traced past memory' ∧ (key, v) ∈ memory'.entries := by
  simp only [Recall.get?, Option.map_eq_some_iff, Prod.mk.injEq] at hg
  obtain ⟨w, hw, rfl, rfl⟩ := hg
  refine ⟨fun k u hu => ?_, by simp⟩
  rcases List.mem_cons.mp hu with he | hu
  · obtain ⟨rfl, rfl⟩ := Prod.mk.inj he
    obtain ⟨before, after, he, -⟩ := List.lookup_eq_some_iff.mp hw
    exact h _ _ (by rw [he]; simp)
  · exact h k u (List.mem_filter.mp hu).1

/-- Looking a key up gives nothing, or what the memory holds under it. -/
private theorem serves_recalled (key : Digest) :
    Serves Traced (recorded.lift (recalled? key)) fun found past memory =>
      Traced past memory ∧ ∀ v, found = some v → (key, v) ∈ memory.entries := by
  refine Serves.modifyGet fun past m h => ?_
  cases hg : m.memory.get? key with
  | some found =>
    obtain ⟨ht, hv⟩ := traced_get? h hg
    refine ⟨ht, fun v he => ?_⟩
    cases he
    exact hv
  | none =>
    refine ⟨?_, fun v he => nomatch he⟩
    dsimp only
    split <;> exact h

private theorem traced_add {past : List Moment} {memory : Recall} (h : Traced past memory)
    (f : Function) (key : Digest) (v : Value) (m : Machine) :
    Traced (past ++ [⟨.returns f key v, m⟩]) (memory.add key v) := by
  intro k w hw
  rw [lastRun_append_singleton]
  rcases List.mem_cons.mp (List.mem_of_mem_take hw) with he | hw
  · obtain ⟨rfl, rfl⟩ := Prod.mk.inj he
    exact ⟨f, if_pos rfl⟩
  · obtain ⟨hw, hne⟩ := List.mem_filter.mp hw
    obtain ⟨g, hg⟩ := h k w hw
    exact ⟨g, (if_neg fun he => by simp [he] at hne).trans hg⟩

/-- What a call returned is remembered, and that it did is noted. -/
private theorem serves_remember (f : Function) (key : Digest) (v : Value) :
    Serves Traced (do recorded.lift (remember key v); recorded.note (.returns f key v))
      fun _ => Traced :=
  Serves.bind (Q := fun _ past memory => ∃ old, Traced past old ∧ memory = old.add key v)
    (Serves.modify fun _ m h => ⟨m.memory, h, rfl⟩) fun _ =>
    Serves.note _ (fun _ _ m ⟨_, h, he⟩ => he ▸ traced_add h f key v m) fun _ _ _ _ _ _ hn => nomatch hn

section Calls

variable {P : Value → Prop}

private theorem serves_lift {α : Type} {x : Eval α} (hx : Step.Keeps (·.memory) x) :
    Serves Traced (recorded.lift x) fun _ => Traced := Serves.lift (fun _ _ h => h) hx

private theorem keeps_swapIn (scope : Int) : Step.Keeps (·.memory) (Medium.swapIn scope) :=
  .modifyGet fun _ => rfl

private theorem keeps_swapOut (saved : Medium.Saved) :
    Step.Keeps (·.memory) (Medium.swapOut saved) := .modifyGet fun _ => rfl

/-- A call that is answered from memory, with what the memory holds under its key. -/
private theorem serves_answer (f : Function) (key : Digest) (v : Value) (text : Bytes) (scope : Int) :
    Serves (fun past memory => Traced past memory ∧ (key, v) ∈ memory.entries)
      (do
        recorded.lift (Eval.remark text)
        recorded.lift (leave scope)
        recorded.note (.answers f key v)
        pure v)
      fun _ => Traced := by
  have hi : ∀ past memory, Traced past memory ∧ (key, v) ∈ memory.entries → Traced past memory :=
    fun _ _ h => h.1
  refine Serves.bind (Serves.lift hi (remote_memory.remark text)) fun _ =>
    Serves.bind (Serves.lift hi (remote_memory.leave scope)) fun _ =>
    Serves.bind (Q := fun _ => Traced) (Serves.note _ ?_ ?_) fun _ =>
    Serves.pure (Q := fun _ => Traced) v
  · intro past memory m h k w hw
    rw [lastRun_append_singleton]
    exact h.1 k w hw
  · rintro past memory f' key' v' h ⟨⟩
    exact h.1 key v h.2

private theorem serves_call {within : Int → Option Body → Recorded Value}
    (hw : ∀ scope body, Serves Traced (within scope body) fun _ => Traced) (f : Function)
    (args : List Value) (span : Span) :
    Serves Traced (recorded.call within f args span) fun _ => Traced := by
  refine Serves.bind (serves_lift (remote_memory.enter f span)) fun scope =>
    Serves.bind (serves_lift (remote_memory.bindParams _ _ _ _)) fun _ =>
    Serves.bind (Serves.aside _ (fun _ _ _ => rfl) fun _ _ _ => Note.noConfusion) fun _ =>
    Serves.bind (serves_lift (.gets _)) fun key => Serves.bind (serves_lift (.gets _)) fun depth =>
    Serves.bind (serves_recalled key) fun found => ?_
  cases found with
  | some v =>
    intro past m h
    exact serves_answer f key v _ scope past m ⟨h.1, h.2 v rfl⟩
  | none =>
    have hrun := Serves.bind (serves_lift (remote_memory.trace
        (Bytes.ofString s!"call {f.name} depth={depth}"))) fun _ =>
      Serves.bind (hw scope f.body) fun v =>
      Serves.bind (serves_lift (remote_memory.leave scope)) fun _ =>
      Serves.bind (serves_remember f key v) fun _ => Serves.pure (Q := fun _ => Traced) v
    intro past m h
    simp only [Recorded.bind_assoc] at hrun
    exact hrun past m h.1

private theorem serves_within {run : Option Body → Recorded Unit}
    (hr : ∀ body, Serves Traced (run body) fun _ => Traced) (scope : Int) (body : Option Body) :
    Serves Traced (recorded.within run scope body) fun _ => Traced :=
  Serves.bind (serves_lift (keeps_swapIn scope)) fun saved => Serves.bind (hr body) fun _ =>
    serves_lift (keeps_swapOut saved)

end Calls

private theorem trusty_of {α : Type} {x : Recorded α} (hx : Serves Traced x fun _ => Traced) :
    Trusty (fun _ => True) x := hx.mono fun _ _ _ h => ⟨trivial, h⟩

/-- A definition forgets everything that is remembered. -/
private theorem serves_defineFunction (f : FuncDef) :
    Serves Traced (do recorded.lift (defineFunction f); recorded.note (.defines f))
      fun _ => Traced := by
  refine Serves.bind (Q := fun _ _ memory => memory.entries = []) (fun past m h => ?_) fun _ =>
    Serves.note _ (fun _ _ _ h => traced_of_nil h) fun _ _ _ _ _ _ hn => nomatch hn
  exact ⟨trivial, rfl⟩

private theorem trusty_act {α : Type} (a : Act α) (ha : a.Allowed fun _ => True) :
    Trusty (a.Gives fun _ => True) (recorded.lift a.perform) := by
  intro past m h
  obtain ⟨hans, hpost⟩ := serves_lift (Act.keeps_memory ha) past m h
  refine ⟨hans, ?_⟩
  simp only [recorded] at hpost ⊢
  cases hp : a.perform m with
  | ok v m' =>
    rw [hp] at hpost
    exact ⟨Act.gives_of_ok hp, hpost⟩
  | error e m' =>
    rw [hp] at hpost
    exact hpost
  | exhausted => trivial

private theorem trusty_note (n : Note) (hn : n.isOnWay) :
    Trusty (fun _ => True) (recorded.note n) := by
  refine trusty_of (Serves.aside n ?_ ?_)
  · intro key last m
    cases n <;> first | rfl | cases hn
  · rintro f key v rfl
    cases hn

theorem lockstep_trusty (rounds depth : Nat) :
    Lockstep trusty (recorded.host rounds depth) (recorded.host rounds depth) (fun _ => True)
      (fun _ => True) := by
  induction depth with
  | zero =>
    exact .of_call (fun _ => trivial) (fun _ => trivial) trusty_note (fun a ha _ => trusty_act a ha)
      fun f args span _ _ _ =>
        trusty_of (serves_call (serves_within fun _ => serves_lift .exhausted) f args span)
  | succ depth ih =>
    refine .of_call (fun _ => trivial) (fun _ => trivial) trusty_note (fun a ha _ => trusty_act a ha)
      fun f args span _ _ _ => trusty_of (serves_call (serves_within fun body => ?_) f args span)
    exact Trusty.serves (ih.body? rounds body fun _ _ => trivial)

/-- A walk over a tree answers calls rightly and leaves a memory that can be traced. -/
theorem walk_serves (rounds : Nat) (node : Node) :
    Serves Traced (walk rounds node) fun _ => Traced := by
  intro past m h
  have hn := (lockstep_trusty rounds (m.settings.maxDepth + 1)).node (fun f =>
    trusty_of (serves_defineFunction f)) rounds node
  exact Trusty.serves hn past m h

/-- Whether a machine can go on with what it remembers. -/
def Outcome.Traced (past : List Moment) : Outcome Machine Failure Value → Prop
  | .ok _ m => Machine.Traced past m.memory
  | .error _ m => Machine.Traced past m.memory
  | .exhausted => True

theorem interpret_traced (rounds : Nat) (node : Node) {past : List Moment} {m : Machine}
    (h : Traced past m.memory) :
    Outcome.Traced (past ++ record rounds node m) (interpret rounds node m) := by
  obtain ⟨-, hp⟩ := walk_serves rounds node past m h
  rw [← concluded_walk, record]
  generalize walk rounds node m = result at hp
  rcases result with ⟨_ | _ | _, happened⟩
  case ok v m' =>
    obtain ⟨w, hend⟩ | ⟨e, hend⟩ := conclude_cases node.span v m'
    · rw [concluded, hend]
      exact hp
    · rw [concluded, hend]
      exact hp
  case error e m' => exact hp
  case exhausted => trivial

end Machine

namespace Session

open Machine (Moment Answered RanLast)

/-- What happens while an entry is taken. -/
def record (rounds : Nat) (r : Reading) (entry : Bytes) (m : Machine) : List Moment :=
  match Syntax.parseEntry r.limits entry with
  | .ok (some node) s => Machine.record rounds node (noteParse r s m)
  | _ => []

/-- What happens while entries are taken one after the other. An entry that never comes to an end
is the last. -/
def history (rounds : Nat) (r : Reading) : List Bytes → Machine → List Moment
  | [], _ => []
  | entry :: rest, m =>
    record rounds r entry m ++
      match enter rounds r entry m with
      | (.endless, _) => []
      | (_, m') => history rounds r rest m'

private theorem enter_traced (rounds : Nat) (r : Reading) (entry : Bytes) {past : List Moment}
    {m : Machine} (h : Machine.Traced past m.memory) :
    Answered past (record rounds r entry m) ∧
      ((∃ m', enter rounds r entry m = (.endless, m')) ∨
        Machine.Traced (past ++ record rounds r entry m) (enter rounds r entry m).2.memory) := by
  simp only [record, enter, run]
  cases Syntax.parseEntry r.limits entry with
  | ok node s =>
    cases node with
    | none => exact ⟨trivial, .inr ((List.append_nil past).symm ▸ h)⟩
    | some node =>
      obtain ⟨ha, -⟩ := Machine.walk_serves rounds node past (noteParse r s m) h
      have ht := Machine.interpret_traced rounds node (m := noteParse r s m) h
      refine ⟨ha, ?_⟩
      simp only [interpret]
      cases hi : Machine.interpret rounds node (noteParse r s m) with
      | ok v m' => rw [hi] at ht; exact .inr ht
      | error e m' => rw [hi] at ht; exact .inr ht
      | exhausted => exact .inl ⟨_, rfl⟩
  | error d s => exact ⟨trivial, .inr ((List.append_nil past).symm ▸ h)⟩
  | exhausted => exact ⟨trivial, .inl ⟨_, rfl⟩⟩

private theorem history_answered (rounds : Nat) (r : Reading) (entries : List Bytes)
    {past : List Moment} {m : Machine} (h : Machine.Traced past m.memory) :
    Answered past (history rounds r entries m) := by
  induction entries generalizing past m with
  | nil => trivial
  | cons entry rest ih =>
    obtain ⟨ha, he⟩ := enter_traced rounds r entry h
    refine Machine.answered_append.mpr ⟨ha, ?_⟩
    rcases he with ⟨m', he⟩ | ht
    · rw [he]
      trivial
    · rcases hm : enter rounds r entry m with ⟨answer, m'⟩
      rw [hm] at ht
      cases answer with
      | endless => trivial
      | unparsed | failed | value => exact ih ht

/-- Whatever a call is answered with from memory in a session was returned by the call that last
ran to its end under the same key since a function was last defined. That call was one of the very
function that is called now just when the function that ran is this one. -/
theorem answered_by_lastRun (settings : Machine.Settings) (disk : Disk) (input : Console.Input)
    (output : Console.Output) (rounds : Nat) (r : Reading) (entries : List Bytes)
    (past after : List Moment) (f : Function) (key : Digest) (v : Value) (m : Machine)
    (h : history rounds r entries { settings, disk, input, output } =
      past ++ ⟨.answers f key v, m⟩ :: after) :
    ∃ g, RanLast past g key v ∧ (RanLast past f key v ↔ g = f) := by
  have ha : Answered [] (past ++ ⟨.answers f key v, m⟩ :: after) :=
    h ▸ history_answered rounds r entries (fun _ _ hv => by simp at hv)
  obtain ⟨g, hg⟩ := (Machine.answered_append.mp ha).2.1 f key v rfl
  rw [List.nil_append] at hg
  refine ⟨g, Machine.lastRun_eq_some_iff.mp hg, ?_⟩
  rw [← Machine.lastRun_eq_some_iff, hg]
  simp

/-- The integer that a function gives back in its first statement. -/
private def constant? (f : Function) : Option Int64 :=
  match f.body with
  | some ⟨.giveBack (some e) _ :: _, _⟩ => literal? e
  | _ => none
where
  literal? : Expr → Option Int64
    | .int n _ => some n
    | .single _ inner _ => literal? inner
    | _ => none

/-- Whether at place `i` of a history a function that gives back 2 is answered with the 1 that one
which gives back 1 returned. -/
private def isMixedUpAt (happened : List Moment) (i : Nat) : Bool :=
  match happened[i]? with
  | some ⟨.answers f key (.int n), _⟩ =>
    n == 1 && constant? f == some 2 &&
      ((Machine.lastRun key (happened.take i)).bind fun run => constant? run.1) == some 1
  | _ => false

private theorem exists_of_isMixedUpAt (happened : List Moment)
    (h : (List.range happened.length).any (isMixedUpAt happened)) : ∃ past f key m after,
      happened = past ++ ⟨.answers f key (.int 1), m⟩ :: after ∧ constant? f = some 2 ∧
        ∀ g, RanLast past g key (.int 1) → constant? g = some 1 := by
  obtain ⟨i, -, h⟩ := List.any_eq_true.mp h
  unfold isMixedUpAt at h
  split at h
  · next f key n m hi =>
    simp only [Bool.and_eq_true, beq_iff_eq] at h
    obtain ⟨⟨rfl, hf⟩, hg⟩ := h
    obtain ⟨hlt, hget⟩ := List.getElem?_eq_some_iff.mp hi
    refine ⟨happened.take i, f, key, m, happened.drop (i + 1), ?_, hf, fun g hr => ?_⟩
    · rw [← hget, ← List.drop_eq_getElem_cons, List.take_append_drop]
    · rw [Machine.lastRun_eq_some_iff.mpr hr] at hg
      exact hg
  · cases h

/-- A function that was replaced can still be called by another name. Then the function that
replaced it is answered with the result of the old one. -/
theorem answered_by_lastRun_alias :
    ∃ past f g key m after,
      history 1 ⟨{}, false⟩ ["kawaii f(x) => modoru 1;", "g = f", "kawaii f(x) => modoru 2;",
        "g(0)", "f(0)"] {} = past ++ ⟨.answers f key (.int 1), m⟩ :: after ∧
      RanLast past g key (.int 1) ∧ ¬ RanLast past f key (.int 1) := by
  obtain ⟨past, f, key, m, after, h, hf, hg⟩ := exists_of_isMixedUpAt
    (history 1 ⟨{}, false⟩ ["kawaii f(x) => modoru 1;", "g = f",
      "kawaii f(x) => modoru 2;", "g(0)", "f(0)"] {}) (by decide +kernel)
  obtain ⟨g, hr, hiff⟩ := answered_by_lastRun {} {} {} {} 1 ⟨{}, false⟩ _ past after f key _ m h
  refine ⟨past, f, g, key, m, after, h, hr, fun hown => ?_⟩
  have hgf := hg g hr
  rw [hiff.mp hown, hf] at hgf
  simp at hgf

end Session

end Kotoba
