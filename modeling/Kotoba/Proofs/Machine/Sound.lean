import Kotoba.Proofs.Machine.Forgetful

/-! Acts on twins. All functions that a machine holds are functions of the program, and acts keep
it so; acts on a machine and on its twin come to the same. -/
namespace Kotoba

namespace Store

variable {s : Store} {array : Nat} {v : Value}

theorem mem_elements_alloc {elements : Array Value} (h : v ∈ (s.alloc elements).2.elements array) :
    v ∈ elements ∨ v ∈ s.elements array := by
  simp only [alloc, Store.elements, Array.getElem?_push] at h
  split at h
  · exact .inl h
  · exact .inr h

theorem mem_elements_update {other slot : Nat} {w : Value}
    (h : w ∈ (s.update array slot v).elements other) : w = v ∨ w ∈ s.elements other := by
  simp only [update, elements, Array.getElem?_modify] at h ⊢
  split at h
  · subst_vars
    cases hs : s.arrays[other]? with
    | none => simp [hs] at h
    | some elements =>
      simp only [hs, Option.map_some, Option.getD_some] at h ⊢
      exact (Array.mem_or_eq_of_mem_setIfInBounds h).symm
  · exact .inr h

end Store

namespace Machine

/-- Whether a value is no function, or one of the program. -/
def Library.Known (lib : Library) (v : Value) : Prop := ∀ f, v = .function f → lib.Holds f

theorem Library.known_of_isPlain {lib : Library} {v : Value} (h : v.isPlain) : lib.Known v := by
  rintro f rfl
  cases h

/-- A machine that holds no functions but those of the program, in one of its scopes. -/
structure Sound (lib : Library) (scope : Int) (m : Machine) : Prop where
  scope : m.scope = scope
  fits : lib.Fits m
  bindings : ∀ id x s, m.arena.localSymbol? id x = some s → lib.Known s.value
  elements : ∀ array, ∀ v ∈ m.store.elements array, lib.Known v
  returned : m.flags.returning → lib.Known m.flags.returnValue

/-- What trees may make use of in a scope: in the global one they must not bind the names that
functions mention. -/
def Library.Frees (lib : Library) (scope : Int) : Use → Prop
  | .binds x => scope = Arena.global → ¬ lib.Mentions x
  | _ => True

namespace Sound

variable {lib : Library} {scope : Int} {m : Machine}

theorem symbol? (h : Sound lib scope m) {id : Int} {x : String} {s : Symbol}
    (hs : m.arena.symbol? id x = some s) : lib.Known s.value := by
  obtain ⟨place, hp⟩ := Arena.exists_localSymbol? hs
  exact h.bindings place x s hp

theorem function (h : Sound lib scope m) {id : Int} {x : String} {f : Function}
    (hf : m.arena.function id x = .ok f) : lib.Holds f := by
  obtain ⟨s, hs, hv⟩ := Arena.exists_of_function hf
  exact h.symbol? hs f hv

theorem define (h : Sound lib scope m) {x : String} {v : Value} (hx : lib.Frees scope (.binds x))
    (hv : lib.Known v) : Sound lib scope { m with arena := m.arena.define m.scope x v } where
  scope := h.scope
  fits := by
    refine ⟨h.fits.rooted.define _ x v, fun y hy => ?_⟩
    rw [← h.fits.names y hy, h.scope]
    by_cases hid : scope = Arena.global
    · have hne : y ≠ x := by
        rintro rfl
        exact hx hid hy
      show (m.arena.define scope x v).localSymbol? Arena.global y = _
      rw [hid, Arena.localSymbol?_define_global h.fits.rooted, if_neg hne]
    · exact Arena.localSymbol?_define_of_ne hid x y v
  bindings id y s hs := by
    obtain rfl | hs := Arena.localSymbol?_define hs
    · have hs : (Symbol.of v).value = v := by cases v <;> rfl
      rw [hs]
      exact hv
    · exact h.bindings id y s hs
  elements := h.elements
  returned := h.returned

/-- Only the scopes, the arrays and the flags matter. -/
theorem congr {m' : Machine} (h : Sound lib scope m) (ha : m'.arena = m.arena)
    (hs : m'.scope = m.scope) (he : m'.store.arrays = m.store.arrays)
    (hf : m'.flags = m.flags) : Sound lib scope m' where
  scope := hs.trans h.scope
  fits := ⟨ha ▸ h.fits.rooted, ha ▸ h.fits.names⟩
  bindings := ha ▸ h.bindings
  elements array := by
    simp only [Store.elements, he]
    exact h.elements array
  returned := hf ▸ h.returned

theorem withStore (h : Sound lib scope m) {store : Store}
    (hs : ∀ array, ∀ v ∈ store.elements array, lib.Known v) :
    Sound lib scope { m with store := store } where
  scope := h.scope
  fits := ⟨h.fits.rooted, h.fits.names⟩
  bindings := h.bindings
  elements := hs
  returned := h.returned

theorem flag (h : Sound lib scope m) {flags : Flags}
    (hf : flags.returning → lib.Known flags.returnValue) :
    Sound lib scope { m with flags := flags } where
  scope := h.scope
  fits := ⟨h.fits.rooted, h.fits.names⟩
  bindings := h.bindings
  elements := h.elements
  returned := hf

theorem alloc (h : Sound lib scope m) {elements : Array Value}
    (he : ∀ v ∈ elements, lib.Known v) :
    Sound lib scope { m with store := (m.store.alloc elements).2 } := by
  refine h.withStore fun array v hv => ?_
  obtain hv | hv := Store.mem_elements_alloc hv
  · exact he v hv
  · exact h.elements array v hv

theorem update (h : Sound lib scope m) (array slot : Nat) {v : Value} (hv : lib.Known v) :
    Sound lib scope { m with store := m.store.update array slot v } := by
  refine h.withStore fun other w hw => ?_
  obtain rfl | hw := Store.mem_elements_update hw
  · exact hv
  · exact h.elements other w hw

end Sound

/-- A sound machine and its twin. -/
structure Close (lib : Library) (scope : Int) (m n : Machine) : Prop where
  twin : Twin m n
  sound : Sound lib scope m

/-- Whether a step on a machine, if it comes to an end, comes to the same on every twin, with a
result as given. -/
def Carries (lib : Library) (scope : Int) {α : Type} (P : α → Prop) (x : Eval α) : Prop :=
  ∀ m n, Close lib scope m n → ∀ {a m'}, x m = .ok a m' →
    ∃ n', x n = .ok a n' ∧ P a ∧ Close lib scope m' n'

namespace Carries

variable {lib : Library} {scope : Int} {α β : Type} {P : α → Prop} {Q : β → Prop}

theorem pure {a : α} (h : P a) : Carries lib scope P (Pure.pure a) := by
  intro m n hmn b m' hb
  cases hb
  exact ⟨n, rfl, h, hmn⟩

theorem bind {x : Eval α} {f : α → Eval β} (hx : Carries lib scope P x)
    (hf : ∀ a, P a → Carries lib scope Q (f a)) : Carries lib scope Q (x >>= f) := by
  intro m n hmn b m' hb
  rw [Step.bind_apply] at hb
  cases hxm : x m with
  | ok a m₁ =>
    rw [hxm] at hb
    obtain ⟨n₁, hxn, ha, hmn₁⟩ := hx m n hmn hxm
    obtain ⟨n', hfn, hQ, hmn'⟩ := hf a ha m₁ n₁ hmn₁ hb
    exact ⟨n', by rw [Step.bind_apply, hxn]; exact hfn, hQ, hmn'⟩
  | error e m₁ => rw [hxm] at hb; cases hb
  | exhausted => rw [hxm] at hb; cases hb

theorem fault (f : Fault) (span : Span) : Carries lib scope P (Eval.fault f span) := by
  intro m n _ a m' h
  cases h

theorem ofExcept {span : Span} {x : Except Fault α} (h : ∀ a, x = .ok a → P a) :
    Carries lib scope P (Eval.ofExcept span x) := by
  cases x with
  | ok a => exact pure (h a rfl)
  | error f => exact fault f span

/-- What is refused for a cause of another sort. -/
theorem ofExcept_mapError {ε : Type} {f : ε → Fault} {span : Span} {x : Except ε α}
    (h : ∀ a, x = .ok a → P a) : Carries lib scope P (Eval.ofExcept span (x.mapError f)) := by
  cases x with
  | ok a => exact pure (h a rfl)
  | error e => exact fault (f e) span

/-- Reading what twins share. -/
theorem gets {f : Machine → α} (hf : ∀ m n, Twin m n → f m = f n)
    (hP : ∀ m, Sound lib scope m → P (f m)) : Carries lib scope P (Step.gets f) := by
  intro m n hmn a m' h
  cases h
  refine ⟨n, ?_, hP m hmn.sound, hmn⟩
  rw [hf m n hmn.twin]
  rfl

/-- Changing a machine and its twin alike. -/
theorem modifyGet {f : Machine → α × Machine} (hf : ∀ m n, Twin m n → (f m).1 = (f n).1)
    (hm : ∀ m n, Twin m n → Twin (f m).2 (f n).2)
    (hP : ∀ m, Sound lib scope m → P (f m).1 ∧ Sound lib scope (f m).2) :
    Carries lib scope P (Step.modifyGet f) := by
  intro m n hmn a m' h
  cases h
  obtain ⟨ha, hs⟩ := hP m hmn.sound
  refine ⟨(f n).2, ?_, ha, ⟨hm m n hmn.twin, hs⟩⟩
  rw [hf m n hmn.twin]
  rfl

theorem modify {f : Machine → Machine} (hm : ∀ m n, Twin m n → Twin (f m) (f n))
    (hs : ∀ m, Sound lib scope m → Sound lib scope (f m)) :
    Carries lib scope (fun _ => True) (Step.modify f) := by
  intro m n hmn a m' h
  cases h
  exact ⟨f n, rfl, trivial, hm m n hmn.twin, hs m hmn.sound⟩

theorem inspect {f : Machine → Eval α} (hf : ∀ m n, Twin m n → f m = f n)
    (hP : ∀ m, Sound lib scope m → Carries lib scope P (f m)) :
    Carries lib scope P (Step.get >>= f) := by
  intro m n hmn a m' h
  have hn : (Step.get >>= f) n = f m n := by
    rw [hf m n hmn.twin]
    rfl
  rw [hn]
  exact hP m hmn.sound m n hmn h

theorem describe (v : Value) : Carries lib scope (fun _ => True) (Eval.describe v) :=
  gets (fun m n h => by rw [h.store]) fun _ _ => trivial

/-- A failure that describes a value. -/
theorem described (v : Value) (f : Bytes → Fault) (span : Span) :
    Carries lib scope P (do let text ← Eval.describe v; Eval.fault (f text) span) :=
  bind (describe v) fun _ _ => fault _ _

theorem resolve (x : Ident) : Carries lib scope lib.Known (Eval.resolve x) := by
  refine inspect (fun m n h => by rw [h.arena, h.scope]) fun m hm => ofExcept_mapError fun v hv => ?_
  obtain ⟨s, hs, rfl⟩ := Arena.exists_of_lookup hv
  exact hm.symbol? hs

theorem define {x : String} {v : Value} (hx : lib.Frees scope (.binds x)) (hv : lib.Known v) :
    Carries lib scope (fun _ => True) (Eval.define x v) := by
  refine modify (fun m n h => ?_) fun m hm => hm.define hx hv
  exact { h with arena := by simp only [h.arena, h.scope] }

private theorem alloc {elements : Array Value} (he : ∀ v ∈ elements, lib.Known v) :
    Carries lib scope lib.Known (Eval.alloc elements) := by
  refine modifyGet (fun m n h => ?_) (fun m n h => ?_) fun m hm => ⟨?_, hm.alloc he⟩
  · simp only [Store.alloc, h.store]
  · exact { h with store := by simp only [h.store] }
  · intro f hf
    cases hf

private theorem callable (x : Ident) (given : Nat) (span : Span) :
    Carries lib scope (fun f => lib.Holds f ∧ f.params.length = given)
      (Machine.callable x given span) := by
  intro m n hmn f m' h
  obtain ⟨rfl, hf, hroom, hlen⟩ := Act.callable_ok h
  refine ⟨n, ?_, ⟨hmn.sound.function hf, hlen⟩, hmn⟩
  rw [hmn.twin.arena, hmn.twin.scope] at hf
  rw [hmn.twin.frames, hmn.twin.maxDepth] at hroom
  have hfull : ¬ n.settings.maxDepth ≤ n.frames.size := by omega
  simp [Machine.callable, Step.get, hf, ofExcept_mapError_ok, hfull, hlen]

private theorem print (data : Bytes) (span : Span) :
    Carries lib scope (fun _ => True) (Eval.print data span) := by
  refine inspect (fun m n h => by rw [h.output]) fun m hm => ?_
  cases m.output.write data with
  | ok output =>
    exact modify (fun m n h => { h with output := rfl }) fun m hm => hm.congr rfl rfl rfl rfl
  | error cause => exact fault _ _

private theorem readInput (span : Span) :
    Carries lib scope (fun _ => True) (Eval.readInput span) := by
  refine inspect (fun m n h => by rw [h.input]) fun m hm => ?_
  refine bind (P := fun _ => True) ?_ fun _ _ => ofExcept fun _ _ => trivial
  exact modify (fun m n h => { h with input := rfl }) fun m hm => hm.congr rfl rfl rfl rfl

private theorem handle (file : Eval.FileName) :
    Carries lib scope (fun _ => True) (Eval.handle file) := by
  refine bind (P := fun _ => True) (gets (fun m n h => by rw [h.store]) fun _ _ => trivial)
    fun h _ => ?_
  cases h with
  | some h => exact pure trivial
  | none => exact described _ _ _

private theorem putHandle (file : Eval.FileName) (h : File.Handle) :
    Carries lib scope (fun _ => True) (Eval.putHandle file h) :=
  modify (fun m n h => { h with store := by simp only [h.store] }) fun m hm =>
    hm.congr rfl rfl rfl rfl

private theorem disk : Carries lib scope (fun _ => True) (Step.gets (·.disk)) :=
  gets (fun _ _ h => h.disk) fun _ _ => trivial

private theorem readFile (file : Eval.FileName) (span : Span)
    (take : Disk → File.Handle → Except File.Fault α × File.Handle) :
    Carries lib scope (fun _ => True) (Eval.readFile file span take) :=
  bind disk fun _ _ => bind (handle file) fun _ _ => bind (putHandle file _) fun _ _ =>
    ofExcept fun _ _ => trivial

private theorem writeFile (file : Eval.FileName) (span : Span)
    (put : Disk → File.Handle → Except File.Fault Unit × File.Handle × Disk) :
    Carries lib scope (fun _ => True) (Eval.writeFile file span put) :=
  bind disk fun _ _ => bind (handle file) fun _ _ => bind (putHandle file _) fun _ _ =>
    bind (modify (fun _ _ h => { h with disk := rfl }) fun _ hm => hm.congr rfl rfl rfl rfl)
      fun _ _ => ofExcept fun _ _ => trivial

private theorem trace (text : Bytes) : Carries lib scope (fun _ => True) (Eval.trace text) := by
  refine modify (fun m n h => ?_) fun m hm => ?_
  · constructor <;> split <;> split <;> first
      | exact h.maxDepth | exact h.arena | exact h.scope | exact h.frames | exact h.flags
      | exact h.store | exact h.disk | exact h.input | exact h.output
  · split
    · exact hm.congr rfl rfl rfl rfl
    · exact hm

private theorem openFile {target : Ident} (hx : lib.Frees scope (.binds target.name))
    (path mode : Bytes) (span : Span) :
    Carries lib scope (fun _ => True) (Eval.openFile target path mode span) := by
  refine bind disk fun disk _ => ?_
  cases File.Handle.openAt disk path mode with
  | error f => exact fault _ _
  | ok opened =>
    obtain ⟨h, disk'⟩ := opened
    refine bind (trace _) fun _ _ => bind (P := lib.Known) ?_ fun v hv => define hx hv
    refine modifyGet (fun m n h => ?_) (fun m n h => ?_) fun m hm => ⟨?_, ?_⟩
    · simp only [Store.adopt, h.store]
    · exact { h with store := by simp only [h.store], disk := rfl }
    · intro f hf
      cases hf
    · exact hm.congr rfl rfl rfl rfl

/-- Acts on a sound machine come to the same on its twins, and keep it sound. -/
theorem act {a : Act α} (ha : a.Allowed (lib.Frees scope)) (ht : a.Takes lib.Known) :
    Carries lib scope (a.Gives lib.Known) a.perform := by
  cases a with
  | resolve x => exact resolve x
  | apply rule v span =>
    refine bind (P := fun _ => True) (gets (fun m n h => h.store) fun _ _ => trivial)
      fun store _ => ofExcept fun w hw => Library.known_of_isPlain (isPlain_of_apply hw)
  | combine op l r span =>
    exact ofExcept fun w hw => Library.known_of_isPlain (isPlain_of_binary hw)
  | callable x given span =>
    intro m n hmn f m' h
    obtain ⟨n', hn, ⟨hf, hlen⟩, hmn'⟩ := callable x given span m n hmn h
    refine ⟨n', hn, ⟨?_, hlen⟩, hmn'⟩
    rintro g hg
    cases hg
    exact hf
  | print data span => exact print data span
  | readInput span => exact readInput span
  | arrayOf x =>
    refine bind (resolve x) fun v _ => ?_
    cases v with
    | array i => exact pure trivial
    | _ => exact described _ _ _
  | slotIn array i x indexSpan span =>
    cases i with
    | int k =>
      refine bind (P := fun _ => True) (gets (fun m n h => by rw [h.store]) fun _ _ => trivial)
        fun size _ => ?_
      split
      · exact pure trivial
      · exact fault _ _
    | _ => exact described _ _ _
  | slotValue array slot =>
    refine gets (fun m n h => by rw [h.store]) fun m hm => ?_
    cases hv : (m.store.elements array)[slot]? with
    | none => exact Library.known_of_isPlain rfl
    | some v => exact hm.elements array v (Array.mem_of_getElem? hv)
  | fileOf x =>
    refine bind (resolve x) fun v _ => ?_
    cases v with
    | file i => exact pure rfl
    | _ => exact described _ _ _
  | countOf v span =>
    cases v with
    | int k =>
      simp only [Act.perform, countOf]
      split
      · exact pure trivial
      · exact described _ _ _
    | _ => exact described _ _ _
  | readText file count span => exact readFile file span _
  | readLine file span => exact readFile file span _
  | atEnd file span => exact readFile file span _
  | signal jump =>
    refine modify (fun m n h => { h with flags := by rw [h.flags] }) fun m hm => hm.flag ?_
    cases jump with
    | returning v => exact fun _ => ht
    | breaking | continuing => exact hm.returned
  | isRaised => exact gets (fun m n h => by rw [h.flags]) fun _ _ => trivial
  | endRound =>
    intro m n hmn a m' h
    cases h
    refine ⟨{ n with flags := m.flags.endRound.2 }, ?_, trivial, ?_, hmn.sound.flag ?_⟩
    · show Outcome.ok n.flags.endRound.1 { n with flags := n.flags.endRound.2 } = _
      rw [hmn.twin.flags]
    · exact { hmn.twin with flags := rfl }
    · unfold Flags.endRound
      split <;> exact hmn.sound.returned
  | define x v => exact define ha ht
  | truthy v => exact gets (fun m n h => by rw [h.store]) fun _ _ => trivial
  | format v => exact gets (fun m n h => by rw [h.store]) fun _ _ => trivial
  | rangeBound v span =>
    cases v with
    | int k => exact pure trivial
    | _ => exact fault _ _
  | textOf role v span =>
    cases v with
    | string text => exact pure trivial
    | _ => exact described _ _ _
  | openFile target path mode span => exact openFile ha.2 path mode span
  | closeFile file span => exact writeFile file span _
  | writeText file text span => exact writeFile file span _
  | sizedArray v span =>
    cases v with
    | int k =>
      simp only [Act.perform, sizedArray]
      split
      · exact described _ _ _
      · split
        · exact fault _ _
        · refine alloc fun v hv => ?_
          rw [Array.eq_of_mem_replicate hv]
          exact Library.known_of_isPlain rfl
    | _ => exact described _ _ _
  | alloc elements => exact alloc ht
  | setSlot array slot v =>
    exact modify (fun m n h => { h with store := by simp only [h.store] }) fun m hm =>
      hm.update array slot ht
  | defineFunction f => exact absurd ha id
  | exhaust => intro m n _ a m' h; cases h
  | refuse node => exact fault _ _

end Carries

end Machine

end Kotoba
