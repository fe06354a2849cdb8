import Kotoba.Scope.Arena

/-! Scopes and their places: what there is in a place after each of the operations on arenas, and
what can be seen from the scope of a call, which stands on top of the others. -/
namespace Kotoba

namespace Scope

theorem lookup_insertInto (name x : String) (symbol : Symbol) (bindings : List (String × Symbol)) :
    (insertInto name symbol bindings).lookup x =
      if x = name then some symbol else bindings.lookup x := by
  induction bindings with
  | nil =>
    simp only [insertInto, List.lookup_cons, List.lookup_nil]
    split <;> simp_all
  | cons binding rest ih =>
    obtain ⟨n, s⟩ := binding
    simp only [insertInto]
    split
    · simp only [List.lookup_cons]
      split <;> simp_all
    · split
      · subst_vars
        simp only [List.lookup_cons]
        split <;> simp_all
      · simp only [List.lookup_cons, ih]
        split <;> simp_all

theorem mem_insertInto {x : String} {symbol : Symbol} {bindings : List (String × Symbol)}
    {b : String × Symbol} (h : b ∈ insertInto x symbol bindings) :
    b = (x, symbol) ∨ b ∈ bindings := by
  induction bindings with
  | nil => simpa [insertInto] using h
  | cons first rest ih =>
    obtain ⟨n, u⟩ := first
    simp only [insertInto] at h
    split at h
    · exact List.mem_cons.mp h
    · split at h
      · rcases List.mem_cons.mp h with hnew | hrest
        · exact .inl hnew
        · exact .inr (List.mem_cons_of_mem _ hrest)
      · rcases List.mem_cons.mp h with hfirst | hrest
        · exact .inr (hfirst ▸ List.mem_cons_self)
        · exact (ih hrest).imp_right (List.mem_cons_of_mem _)

end Scope

namespace Arena

/-- Whether there is a scope of the given place. -/
def isLive (a : Arena) (id : Int) : Bool := (a.scope? id).isSome

section Places

variable {a : Arena} {id : Int}

theorem isLive_iff : a.isLive id ↔ global ≤ id ∧ id < a.depth := by
  unfold isLive depth global
  cases id with
  | ofNat n =>
    have hn : Int.ofNat n = (n : Int) := rfl
    simp only [scope?, isSome_getElem?, Array.size_eq_length_toList]
    omega
  | negSucc n =>
    have hn : Int.negSucc n < 0 := Int.negSucc_lt_zero n
    simp only [scope?, Option.isSome_none, Bool.false_eq_true, false_iff]
    omega

theorem scope?_eq_none_iff : a.scope? id = none ↔ ¬ a.isLive id := by
  simp [isLive]

/-- Only the scope that is pushed is new, and nothing is bound in it. -/
theorem scope?_push (name : String) (parent : Int) :
    (a.push name parent).2.scope? id =
      if id = a.depth then some { name, parent, level := a.level parent + 1 } else a.scope? id := by
  cases id with
  | ofNat n =>
    have hn : Int.ofNat n = (n : Int) := rfl
    simp only [push, scope?, Array.getElem?_push, depth, hn, Int.natCast_inj]
  | negSucc n =>
    have hn : Int.negSucc n < 0 := Int.negSucc_lt_zero n
    rw [if_neg (by omega)]
    rfl

private theorem scope?_take (n : Nat) :
    ({ scopes := a.scopes.take n } : Arena).scope? id = if id < n then a.scope? id else none := by
  cases id with
  | ofNat k =>
    have hk : Int.ofNat k = (k : Int) := rfl
    simp only [scope?, Array.take_eq_extract, Array.getElem?_extract, hk, Int.ofNat_lt]
    by_cases hlt : k < n
    · by_cases hsize : k < a.scopes.size
      · rw [if_pos (by omega), if_pos hlt, Nat.zero_add]
      · rw [if_neg (by omega), if_pos hlt, Array.getElem?_eq_none (by omega)]
    · rw [if_neg (by omega), if_neg hlt]
  | negSucc k =>
    split <;> rfl

/-- The global scope is never dropped. -/
theorem scope?_pop (first : Int) :
    (a.pop first).scope? id = if global < first ∧ first ≤ id then none else a.scope? id := by
  unfold pop
  by_cases hfirst : first ≤ global
  · rw [if_pos hfirst, if_neg (by omega)]
  · have hg : global = 0 := rfl
    have htoNat : (first.toNat : Int) = first := Int.toNat_of_nonneg (by omega)
    rw [if_neg hfirst, Array.shrink_eq_take, scope?_take, htoNat]
    by_cases hid : id < first
    · rw [if_pos hid, if_neg (by omega)]
    · rw [if_neg hid, if_pos (by omega)]

theorem scope?_reset : a.reset.scope? id = if global < id then none else a.scope? id := by
  have hg : global = 0 := rfl
  rw [reset, scope?_take]
  by_cases hid : global < id
  · rw [if_neg (by omega), if_pos hid]
  · rw [if_pos (by omega), if_neg hid]

/-- A binding changes one scope. -/
theorem scope?_insert (place : Int) (x : String) (symbol : Symbol) :
    (a.insert place x symbol).scope? id =
      if place = id then (a.scope? id).map fun s => s.insert x symbol else a.scope? id := by
  unfold insert
  cases id with
  | ofNat n =>
    have hn : Int.ofNat n = (n : Int) := rfl
    by_cases hplace : place < 0
    · rw [if_pos hplace, if_neg (by omega)]
    · have hsame : place.toNat = n ↔ place = Int.ofNat n := by omega
      rw [if_neg hplace]
      simp only [scope?, Array.getElem?_modify, hsame]
  | negSucc n =>
    have hnone : ∀ b : Arena, b.scope? (Int.negSucc n) = none := fun _ => rfl
    rw [hnone, hnone, Option.map_none, ite_self]

theorem localSymbol?_of_not_isLive (h : ¬ a.isLive id) (name : String) :
    a.localSymbol? id name = none := by
  rw [localSymbol?, scope?_eq_none_iff.mpr h, Option.bind_none]

/-- A name that is bound in a live scope is bound to the symbol there, and to nothing new
elsewhere. -/
theorem localSymbol?_insert (place : Int) (x name : String) (symbol : Symbol) :
    (a.insert place x symbol).localSymbol? id name =
      if a.isLive id ∧ place = id ∧ x = name then some symbol else a.localSymbol? id name := by
  rw [localSymbol?, localSymbol?, scope?_insert]
  cases hs : a.scope? id with
  | none =>
    have hdead : ¬ a.isLive id := scope?_eq_none_iff.mp hs
    simp [hdead]
  | some s =>
    have hlive : a.isLive id := by rw [isLive, hs, Option.isSome_some]
    by_cases hplace : place = id
    · by_cases hx : name = x
      · simp [hlive, hplace, hx, Scope.symbol?, Scope.insert, Scope.lookup_insertInto]
      · simp [hplace, hx, Ne.symm hx, Scope.symbol?, Scope.insert, Scope.lookup_insertInto]
    · simp [hplace]

/-- After a binding a name means the new value, or what it meant before. -/
theorem localSymbol?_define {place : Int} {x y : String} {v : Value} {s : Symbol}
    (h : (a.define place x v).localSymbol? id y = some s) :
    s = .of v ∨ a.localSymbol? id y = some s := by
  rw [define, localSymbol?_insert] at h
  split at h
  · exact .inl (Option.some.inj h).symm
  · exact .inr h

/-- A name has a meaning only if it is bound somewhere. -/
theorem exists_localSymbol? {x : String} {s : Symbol} (h : a.symbol? id x = some s) :
    ∃ place, a.localSymbol? place x = some s := by
  unfold symbol? at h
  generalize a.scopes.size = fuel at h
  induction fuel generalizing id with
  | zero => cases h
  | succ fuel ih =>
    rw [symbolFrom] at h
    split at h
    · next t ht =>
      cases h
      exact ⟨id, ht⟩
    · split at h
      · exact ih h
      · cases h

theorem exists_of_lookup {x : String} {v : Value} (h : a.lookup id x = .ok v) :
    ∃ s, a.symbol? id x = some s ∧ s.value = v := by
  unfold lookup at h
  split at h
  · next s hs =>
    cases h
    exact ⟨s, hs, rfl⟩
  · cases h

theorem exists_of_function {x : String} {f : Function} (h : a.function id x = .ok f) :
    ∃ s, a.symbol? id x = some s ∧ s.value = .function f := by
  unfold function at h
  split at h
  · cases h
  · next s hs =>
    split at h
    · next g hg =>
      cases h
      exact ⟨s, hs, hg⟩
    · cases h

theorem isLive_of_localSymbol? {name : String} {symbol : Symbol}
    (h : a.localSymbol? id name = some symbol) : a.isLive id := by
  by_cases hlive : a.isLive id
  · exact hlive
  · rw [localSymbol?_of_not_isLive hlive] at h
    cases h

/-- A name that is bound in a live scope has the value it is bound to. -/
theorem lookup_define (h : a.isLive id) (x : String) (v : Value) :
    (a.define id x v).lookup id x = .ok v := by
  have hlocal : (a.define id x v).localSymbol? id x = some (.of v) := by
    rw [define, localSymbol?_insert, if_pos ⟨h, rfl, rfl⟩]
  have hsymbol : (a.define id x v).symbol? id x = some (.of v) := by
    have hbounds := isLive_iff.mp (isLive_of_localSymbol? hlocal)
    obtain ⟨fuel, hfuel⟩ : ∃ fuel, (a.define id x v).scopes.size = fuel + 1 := by
      unfold depth global at hbounds
      exact ⟨(a.define id x v).scopes.size - 1, by omega⟩
    rw [symbol?, hfuel, symbolFrom, hlocal]
  rw [lookup, hsymbol]
  cases v <;> rfl

end Places

/-- The global scope is there and has no parent. -/
def IsRooted (a : Arena) : Prop := ∃ s, a.scopes[0]? = some s ∧ s.parent = -1

/-- The arena with the scope of a call on top. -/
def above (a : Arena) (name : String) (bindings : List (String × Symbol)) : Arena where
  scopes := a.scopes.push { name, parent := global, level := a.level global + 1, symbols := bindings }

/-- The place of the scope on top. -/
def top (a : Arena) : Int := a.scopes.size

theorem IsRooted.size_pos {a : Arena} (h : a.IsRooted) : 0 < a.scopes.size := by
  obtain ⟨s, hs, -⟩ := h
  exact (Array.getElem?_eq_some_iff.mp hs).1

variable {a : Arena} {name : String} {bindings : List (String × Symbol)}

theorem pop_above (h : a.IsRooted) : (a.above name bindings).pop a.top = a := by
  have hpos := h.size_pos
  have htop : ¬ a.top ≤ global := by
    unfold top global
    omega
  rw [pop, if_neg htop]
  simp [top, above]

theorem define_above (x : String) (v : Value) :
    (a.above name bindings).define a.top x v =
      a.above name (Scope.insertInto x (.of v) bindings) := by
  have htop : ¬ a.top < 0 := by
    unfold top
    omega
  rw [define, insert, if_neg htop]
  simp only [top, Int.toNat_natCast, above, mk.injEq]
  apply Array.ext
  · simp
  · intro i hi hi'
    rw [Array.getElem_modify]
    split
    · subst_vars
      simp [Scope.insert]
    · have hlt : i < a.scopes.size := by
        simp only [Array.size_push] at hi'
        omega
      simp [Array.getElem_push_lt hlt]

@[simp] theorem scope?_above_top :
    (a.above name bindings).scope? a.top =
      some { name, parent := global, level := a.level global + 1, symbols := bindings } := by
  simp [scope?, top, above]

@[simp] theorem localSymbol?_above_top (x : String) :
    (a.above name bindings).localSymbol? a.top x = bindings.lookup x := by
  simp [localSymbol?, Scope.symbol?]

theorem localSymbol?_above {id : Int} {x : String} {s : Symbol}
    (h : (a.above name bindings).localSymbol? id x = some s) :
    bindings.lookup x = some s ∨ a.localSymbol? id x = some s := by
  cases id with
  | negSucc n => cases h
  | ofNat n =>
    simp only [localSymbol?, scope?, above, Array.getElem?_push] at h ⊢
    split at h
    · exact .inl h
    · exact .inr h

private theorem getElem?_above_zero (h : a.IsRooted) :
    (a.above name bindings).scopes[0]? = a.scopes[0]? := by
  have hpos := h.size_pos
  rw [above, Array.getElem?_push, if_neg (by omega)]

@[simp] theorem scope?_above_global (h : a.IsRooted) :
    (a.above name bindings).scope? global = a.scope? global := getElem?_above_zero h

theorem IsRooted.above (h : a.IsRooted) : (a.above name bindings).IsRooted := by
  obtain ⟨s, hs, hp⟩ := h
  exact ⟨s, by rw [getElem?_above_zero ⟨s, hs, hp⟩, hs], hp⟩

theorem localSymbol?_above_global (h : a.IsRooted) (x : String) :
    (a.above name bindings).localSymbol? global x = a.localSymbol? global x := by
  simp only [localSymbol?, scope?_above_global h]

private theorem symbolFrom_global (h : a.IsRooted) (x : String) (fuel : Nat) :
    a.symbolFrom x (fuel + 1) global = a.localSymbol? global x := by
  obtain ⟨s, hs, hp⟩ := h
  have hs : a.scope? global = some s := hs
  have hparent : a.parent? global = none := by simp [parent?, hs, hp]
  simp only [symbolFrom, hparent]
  cases a.localSymbol? global x <;> rfl

/-- From a call its own bindings are seen, and behind them the global ones. -/
theorem symbol?_above_top (h : a.IsRooted) (x : String) :
    (a.above name bindings).symbol? a.top x =
      (bindings.lookup x).or (a.localSymbol? global x) := by
  obtain ⟨fuel, hf⟩ := Nat.exists_eq_add_of_lt h.size_pos
  have hsize : (a.above name bindings).scopes.size = fuel + 1 + 1 := by
    simp only [above, Array.size_push]
    omega
  have hparent : (a.above name bindings).parent? a.top = some global := by
    simp [parent?, global]
  rw [symbol?, hsize, symbolFrom, localSymbol?_above_top, hparent]
  cases bindings.lookup x with
  | some symbol => rfl
  | none =>
    simp only [Option.none_or]
    rw [symbolFrom_global h.above, localSymbol?_above_global h]

/-- A binding is made in one scope only. -/
theorem scope?_define_of_ne {id place : Int} (hne : id ≠ place) (x : String) (v : Value) :
    (a.define place x v).scope? id = a.scope? id := by
  rw [define, scope?_insert, if_neg hne.symm]

private theorem scope?_define_global (x : String) (v : Value) :
    (a.define global x v).scope? global = (a.scope? global).map fun s => s.insert x (.of v) := by
  rw [define, scope?_insert, if_pos rfl]

theorem localSymbol?_define_global (h : a.IsRooted) (x y : String) (v : Value) :
    (a.define global x v).localSymbol? global y =
      if y = x then some (.of v) else a.localSymbol? global y := by
  obtain ⟨s, hs, -⟩ := h
  have hs : a.scope? global = some s := hs
  simp only [localSymbol?, scope?_define_global, hs, Option.map_some, Option.bind_some,
    Scope.symbol?, Scope.insert, Scope.lookup_insertInto]

theorem IsRooted.define_global (h : a.IsRooted) (x : String) (v : Value) :
    (a.define global x v).IsRooted := by
  obtain ⟨s, hs, hp⟩ := h
  have hs : a.scope? global = some s := hs
  refine ⟨s.insert x (.of v), ?_, hp⟩
  have h := scope?_define_global (a := a) x v
  rw [hs] at h
  exact h

/-- Bindings elsewhere are no bindings of the global scope. -/
theorem localSymbol?_define_of_ne {id : Int} (hid : id ≠ global) (x y : String) (v : Value) :
    (a.define id x v).localSymbol? global y = a.localSymbol? global y := by
  simp only [localSymbol?, scope?_define_of_ne (Ne.symm hid)]

theorem IsRooted.define (h : a.IsRooted) (id : Int) (x : String) (v : Value) :
    (a.define id x v).IsRooted := by
  by_cases hid : id = global
  · rw [hid]
    exact h.define_global x v
  · obtain ⟨s, hs, hp⟩ := h
    exact ⟨s, (scope?_define_of_ne (Ne.symm hid) x v).trans hs, hp⟩

end Arena

end Kotoba
