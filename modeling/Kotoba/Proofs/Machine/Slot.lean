import Kotoba.Proofs.Machine.Lasting
import Kotoba.Proofs.Machine.Range
import Kotoba.Proofs.Machine.Still

/-! Slots of arrays. Which slot is written is settled before the value is known, and the value may
be that of any expression. The slot is there nevertheless when it is written, in the array that was
meant, and it shows the value under every name of that array. -/
namespace Kotoba

namespace Store

/-- An array that has a slot is there. -/
theorem lt_size_of_slot {s : Store} {a i : Nat} (h : i < (s.elements a).size) :
    a < s.arrays.size := by
  apply Nat.lt_of_not_le
  intro hle
  rw [elements, Array.getElem?_eq_none hle] at h
  cases h

/-- What becomes of a store when a slot of an array is written. -/
structure Updated (s : Store) (a i : Nat) (v : Value) (t : Store) : Prop where
  slot : (t.elements a)[i]? = some v
  others : ∀ b j, (b, j) ≠ (a, i) → (t.elements b)[j]? = (s.elements b)[j]?
  lengths : s.Lasts t
  made : t.arrays.size = s.arrays.size
  files : t.files = s.files

theorem elements_update (s : Store) (a i : Nat) (v : Value) (b : Nat) :
    (s.update a i v).elements b =
      if a = b then (s.elements b).setIfInBounds i v else s.elements b := by
  simp only [update, elements, Array.getElem?_modify]
  by_cases hab : a = b
  · rw [if_pos hab, if_pos hab]
    cases s.arrays[b]? <;> simp
  · rw [if_neg hab, if_neg hab]

theorem updated_update {s : Store} {a i : Nat} (h : i < (s.elements a).size) (v : Value) :
    s.Updated a i v (s.update a i v) where
  slot := by
    rw [elements_update, if_pos rfl, Array.getElem?_setIfInBounds_self_of_lt h]
  others b j hne := by
    rw [elements_update]
    by_cases hab : a = b
    · have hij : i ≠ j := fun hij => hne (by rw [hab, hij])
      rw [if_pos hab, Array.getElem?_setIfInBounds_ne hij]
    · rw [if_neg hab]
  lengths := .update s a i v
  made := by simp [update]
  files := rfl

end Store

namespace Machine

section Slots

variable {array : Ident} {index : Eval Value} {indexSpan span : Span} {m m₁ : Machine} {a i : Nat}

/-- Whether a name is bound to an array. -/
def Names (m : Machine) (x : String) (a : Nat) : Prop := m.arena.lookup m.scope x = .ok (.array a)

theorem resolve_ok {x : Ident} {v : Value} {m' : Machine} (h : Eval.resolve x m = .ok v m') :
    m' = m ∧ m.arena.lookup m.scope x.name = .ok v := by
  obtain ⟨n, m₂, hget, h⟩ := Step.bind_eq_ok h
  cases hget
  cases hlookup : m.arena.lookup m.scope x.name with
  | ok w =>
    rw [hlookup] at h
    cases h
    exact ⟨rfl, rfl⟩
  | error e =>
    rw [hlookup] at h
    cases h

/-- An index is in bounds if it is not negative and less than the length. -/
theorem slotOf_int {n : Int64} (hname : m.Names array.name a) (hindex : index m = .ok (.int n) m₁) :
    slotOf array index indexSpan span m =
      if n.toInt < 0 ∨ (m₁.store.elements a).size ≤ n.toInt then
        .error ⟨.outOfBounds n array.name (m₁.store.elements a).size, span⟩ m₁
      else .ok (a, n.toInt.toNat) m₁ := by
  have hresolve : Eval.resolve array m = .ok (.array a) m := by
    simp only [Eval.resolve, Step.bind_apply, Step.get]
    rw [hname]
    rfl
  have hbounds : (0 ≤ n ∧ n.toNatClampNeg < (m₁.store.elements a).size) ↔
      ¬ (n.toInt < 0 ∨ (m₁.store.elements a).size ≤ n.toInt) := by
    have hzero : (0 : Int64).toInt = 0 := rfl
    have hnat : n.toNatClampNeg = n.toInt.toNat := rfl
    rw [Int64.le_iff_toInt_le, hzero, hnat]
    omega
  simp only [slotOf, Step.bind_apply, hresolve, hindex, Step.gets]
  by_cases hout : n.toInt < 0 ∨ (m₁.store.elements a).size ≤ n.toInt
  · rw [if_pos hout, if_neg (fun hin => hbounds.mp hin hout)]
    rfl
  · rw [if_neg hout, if_pos (hbounds.mpr hout)]
    rfl

theorem slotOf_refuses_iff {n : Int64} (hname : m.Names array.name a)
    (hindex : index m = .ok (.int n) m₁) :
    (∃ f m', slotOf array index indexSpan span m = .error f m' ∧
      f.fault.kind? = some .indexOutOfBounds) ↔
        n.toInt < 0 ∨ (m₁.store.elements a).size ≤ n.toInt := by
  rw [slotOf_int hname hindex]
  constructor
  · rintro ⟨f, m', herror, -⟩
    by_cases hout : n.toInt < 0 ∨ (m₁.store.elements a).size ≤ n.toInt
    · exact hout
    · rw [if_neg hout] at herror
      cases herror
  · intro hout
    rw [if_pos hout]
    exact ⟨_, _, rfl, rfl⟩

theorem slotOf_ok (h : slotOf array index indexSpan span m = .ok (a, i) m₁) :
    m.Names array.name a ∧ ∃ n : Int64, index m = .ok (.int n) m₁ ∧ n.toInt = i ∧
      i < (m₁.store.elements a).size := by
  obtain ⟨v, m', hresolve, hslot⟩ := Step.bind_eq_ok h
  obtain ⟨rfl, hname⟩ := resolve_ok hresolve
  cases v with
  | array b =>
    obtain ⟨w, m₂, hindex, hslot⟩ := Step.bind_eq_ok hslot
    cases w with
    | int n =>
      rw [slotOf_int hname hindex] at h
      split at h
      · cases h
      · cases h
        exact ⟨hname, n, hindex, by omega, by omega⟩
    | _ => cases hslot
  | _ => cases hslot

/-- What a slot holds is the result of the element. -/
theorem eval_element {run : Run} {x : Ident} {k : Int64} {v : Value}
    (hname : m.Names x.name a) (hk : k.toInt = i) (hv : (m.store.elements a)[i]? = some v) :
    eval run (.element x (.int k indexSpan) span) m = .ok v m := by
  obtain ⟨hlt, -⟩ := Array.getElem?_eq_some_iff.mp hv
  have hindex : evalExpr run (.int k indexSpan) m = .ok (.int k) m := rfl
  have hslot : slotOf x (evalExpr run (.int k indexSpan)) indexSpan span m = .ok (a, i) m := by
    have hnat : k.toInt.toNat = i := by omega
    rw [slotOf_int hname hindex, if_neg (by omega), hnat]
  rw [eval, ← evalExpr, Step.bind_apply, Expr.span, hslot]
  simp only [slotValue, Step.gets, hv, Option.getD_some]

end Slots

/-- Whether a value is seen in a slot of an array: under each name that is bound to the array, and
under each name that is given the array from the slot of another one which holds it. -/
structure Shows (c : Context) (m : Machine) (a i : Nat) (v : Value) : Prop where
  named : ∀ (x : Ident) (k : Int64) (inner outer : Span), m.Names x.name a → k.toInt = i →
    eval c.run (.element x (.int k inner) outer) m = .ok v m
  held : ∀ (y z : Ident) (b j : Nat) (l : Int64) (inner outer span : Span), m.IsLive →
    m.Names y.name b → l.toInt = j → (m.store.elements b)[j]? = some (.array a) →
    ∃ m', execStmt c (.assign z (.element y (.int l inner) outer) span) m = .ok () m' ∧
      ∀ (k : Int64) (inner outer : Span), k.toInt = i →
        eval c.run (.element z (.int k inner) outer) m' = .ok v m'

theorem shows_of_slot (c : Context) {m : Machine} {a i : Nat} {v : Value}
    (h : (m.store.elements a)[i]? = some v) : Shows c m a i v where
  named _ _ _ _ hname hk := eval_element hname hk h
  held y z b j l inner outer span hlive hname hl hj := by
    let m' : Machine := { m with arena := m.arena.define m.scope z.name (.array a) }
    have hread : evalExpr c.run (.element y (.int l inner) outer) m = .ok (.array a) m :=
      evalExpr_of_eval (eval_element hname hl hj) rfl
    have hassign : execStmt c (.assign z (.element y (.int l inner) outer) span) m = .ok () m' := by
      rw [execStmt_of_isElementary c rfl, execSimple, Step.bind_apply, hread]
      rfl
    have hz : m'.Names z.name a := Arena.lookup_define hlive z.name (.array a)
    exact ⟨m', hassign, fun k inner outer hk => eval_element hz hk h⟩

/-- The slot is found first, then the value, and then the slot is written. -/
theorem execStmt_update {c : Context} {array : Ident} {index value : Expr} {slot span : Span}
    {m m₁ m₂ : Machine} {a i : Nat} {v : Value}
    (hslot : slotOf array (evalExpr c.run index) index.span slot m = .ok (a, i) m₁)
    (hvalue : evalExpr c.run value m₁ = .ok v m₂) :
    execStmt c (.update array index slot value span) m =
      .ok () { m₂ with store := m₂.store.update a i v } := by
  rw [execStmt_of_isElementary c rfl, execSimple, Step.bind_apply, hslot]
  dsimp only
  rw [Step.bind_apply, hvalue]
  rfl

/-- The name of an array stands for the same one after an expression was evaluated. -/
theorem Names.of_evalExpr {rounds depth : Nat} {e : Expr} {m m' : Machine} {v : Value} {x : String}
    {a : Nat} (hname : m.Names x a) (hlive : m.IsLive)
    (h : evalExpr (runBody rounds depth) e m = .ok v m') : m'.Names x a ∧ m'.IsLive := by
  have hstack := (restores_evalExpr hlive h).stack
  have hscope : m'.scope = m.scope := congrArg (·.2.2.1) hstack
  have harena := arena_of_stack hstack
  constructor
  · unfold Names
    rw [harena, hscope]
    exact hname
  · exact hlive.of_surroundings (surroundings_of_stack hstack)

/-- What happens to the slots of arrays. Along the interpretation of a tree no array changes its
length. When a slot is written, it is one of the array that the name of the array stood for before
anything was evaluated, and the name still stands for it. The slot was in bounds before the value
was evaluated and it is afterwards, whatever the value is. It is the only one that is written, and
what was written is seen there from then on, by all names and in all arrays. A slot is refused as
out of bounds just when the index is negative or not less than the length. -/
theorem slots_safe :
    (∀ rounds node m, (m :: ((record rounds node m).map (·.machine) ++
      (interpret rounds node m).state?.toList)).Pairwise fun n n' => n.store.Lasts n'.store) ∧
    (∀ (rounds depth : Nat) (array : Ident) (index value : Expr) (slot span : Span)
      (m m₁ m₂ : Machine) (a i : Nat) (v : Value),
      let c : Context := ⟨runBody rounds depth, rounds⟩
      slotOf array (evalExpr c.run index) index.span slot m = .ok (a, i) m₁ →
      evalExpr c.run value m₁ = .ok v m₂ →
      m.Names array.name a ∧ (m.IsLive → m₂.Names array.name a) ∧
      m.store.Lasts m₁.store ∧ m₁.store.Lasts m₂.store ∧
      i < (m₁.store.elements a).size ∧ i < (m₂.store.elements a).size ∧
      ∃ store, m₂.store.Updated a i v store ∧
        execStmt c (.update array index slot value span) m = .ok () { m₂ with store := store } ∧
        ∀ n : Machine, n.store = store → Shows c n a i v) ∧
    ∀ (array : Ident) (index : Eval Value) (indexSpan span : Span) (m m₁ : Machine) (a : Nat)
      (n : Int64), m.Names array.name a → index m = .ok (.int n) m₁ →
      ((∃ f m', slotOf array index indexSpan span m = .error f m' ∧
        f.fault.kind? = some .indexOutOfBounds) ↔
          n.toInt < 0 ∨ (m₁.store.elements a).size ≤ n.toInt) ∧
      (0 ≤ n.toInt → n.toInt < (m₁.store.elements a).size →
        slotOf array index indexSpan span m = .ok (a, n.toInt.toNat) m₁) := by
  refine ⟨interpret_lasts, ?_, ?_⟩
  · intro rounds depth array index value slot span m m₁ m₂ a i v c hslot hvalue
    obtain ⟨hname, n, hindex, -, hlt⟩ := slotOf_ok hslot
    have hlasts : m.store.Lasts m₁.store :=
      lasting_evalExpr rounds depth index m m₁ (by rw [hindex]; rfl)
    have hlasts' : m₁.store.Lasts m₂.store :=
      lasting_evalExpr rounds depth value m₁ m₂ (by rw [hvalue]; rfl)
    have hnames : m.IsLive → m₂.Names array.name a := by
      intro hlive
      obtain ⟨hname₁, hlive₁⟩ := hname.of_evalExpr hlive hindex
      exact (hname₁.of_evalExpr hlive₁ hvalue).1
    -- the array that was checked is there, so that its length stands until the slot is written
    have hlt' : i < (m₂.store.elements a).size := by
      rw [hlasts'.length a (Store.lt_size_of_slot hlt)]
      exact hlt
    have hupdated := Store.updated_update hlt' v
    refine ⟨hname, hnames, hlasts, hlasts', hlt, hlt', _, hupdated,
      execStmt_update hslot hvalue, ?_⟩
    intro n hn
    apply shows_of_slot
    rw [hn]
    exact hupdated.slot
  · exact fun _ _ _ _ _ _ _ _ hname hindex => ⟨slotOf_refuses_iff hname hindex,
      fun hzero hlt => by rw [slotOf_int hname hindex, if_neg (by omega)]⟩

/-- A function that writes the first slot of its argument. -/
private def writer : Function where
  name := "f"
  params := ["x"]
  body := some ⟨[.update ⟨"x", {}⟩ (.int 0 {}) {} (.int 9 {}) {}, .giveBack (some (.int 5 {})) {}],
    {}⟩

/-- A machine with an array under two names, and another array that holds it. -/
private def shared : Machine where
  arena := ((({} : Arena).define Arena.global "a" (.array 0)).define Arena.global "b"
    (.array 0)).define Arena.global "f" (.function writer)
  store := { arrays := #[#[.int 1, .int 2], #[.array 0]] }

/-- In `a[0] = f(a)` the function writes the slot, too. What it returns is written after that. -/
theorem slots_safe_shared : ∃ m', execStmt ⟨runBody 0 2, 0⟩ (.update ⟨"a", {}⟩ (.int 0 {}) {}
    (.call ⟨"f", {}⟩ [.name ⟨"a", {}⟩] {}) {}) shared = .ok () m' ∧
      m'.Names "a" 0 ∧ Shows ⟨runBody 0 2, 0⟩ m' 0 0 (.int 5) ∧
      ∃ f m', slotOf ⟨"b", {}⟩ (evalExpr (runBody 0 2) (.int 2 {})) {} {} shared = .error f m' ∧
        f.fault.kind? = some .indexOutOfBounds := by
  obtain ⟨-, hupdate, hslots⟩ := slots_safe
  have hname : shared.Names "a" 0 := rfl
  have hindex := (hslots ⟨"a", {}⟩ (evalExpr (runBody 0 2) (.int 0 {})) {} {} shared shared 0 0
    hname rfl).2 (by decide) (by decide)
  obtain ⟨m₂, hvalue⟩ := exists_of_endsWith (show endsWith 5
    (evalExpr (runBody 0 2) (.call ⟨"f", {}⟩ [.name ⟨"a", {}⟩] {}) shared) by decide +kernel)
  obtain ⟨-, hstill, -, -, -, -, store, -, hexec, hshows⟩ :=
    hupdate 0 2 ⟨"a", {}⟩ (.int 0 {}) _ {} {} shared shared m₂ 0 0 (.int 5) hindex hvalue
  have hrefused := (hslots ⟨"b", {}⟩ (evalExpr (runBody 0 2) (.int 2 {})) {} {} shared shared 0 2
    rfl rfl).1.mpr (.inr (by decide))
  exact ⟨_, hexec, hstill (by unfold IsLive; decide), hshows _ rfl, hrefused⟩

end Machine

end Kotoba
