import Kotoba.Proofs.Scope.Arena

/-! Histories of arenas. A history holds the changes that were made to a new arena, the latest
first. If every scope was pushed onto a live one, the live scopes are a tree whose parents are older
than their children, so that every look-up comes to an end at the global scope. What it finds is
what was bound last under the name, in the innermost scope where the name is bound. -/
namespace Kotoba.Arena

/-- A change of an arena. -/
inductive Change where
  | push (name : String) (parent : Int)
  | pop (id : Int)
  | reset
  | insert (id : Int) (name : String) (symbol : Symbol)
  | define (id : Int) (name : String) (v : Value)

namespace Change

def apply : Change → Arena → Arena
  | push name parent, a => (a.push name parent).2
  | pop id, a => a.pop id
  | reset, a => a.reset
  | insert id name symbol, a => a.insert id name symbol
  | define id name v, a => a.define id name v

/-- What a change binds a name to in a live scope. -/
def binds? (id : Int) (name : String) : Change → Option Symbol
  | insert place x symbol => if place = id ∧ x = name then some symbol else none
  | define place x v => if place = id ∧ x = name then some (.of v) else none
  | _ => none

/-- Whether a change drops a live scope. -/
def drops (id : Int) : Change → Bool
  | pop first => global < first && first ≤ id
  | reset => global < id
  | _ => false

end Change

/-- The arena that a history leads to. -/
def after : List Change → Arena
  | [] => {}
  | change :: past => change.apply (after past)

/-- Whether every scope was pushed onto a live one. -/
def Grounded : List Change → Prop
  | [] => True
  | .push _ parent :: past => (after past).isLive parent ∧ Grounded past
  | _ :: past => Grounded past

/-- A symbol was bound under a name in a scope which was live then. Since then neither was the scope
dropped nor the name bound there again. -/
def Newest (past : List Change) (id : Int) (name : String) (symbol : Symbol) : Prop :=
  ∃ later change earlier, past = later ++ change :: earlier ∧
    (after earlier).isLive id ∧ change.binds? id name = some symbol ∧
    ∀ c ∈ later, c.drops id = false ∧ c.binds? id name = none

section Bindings

variable {a : Arena}

/-- The scopes that are not dropped keep their bindings. -/
private theorem localSymbol?_of_drops {b : Arena} {id : Int} {p : Prop} [Decidable p]
    (h : b.scope? id = if p then none else a.scope? id) (name : String) :
    b.localSymbol? id name =
      if p then none else if a.isLive id then a.localSymbol? id name else none := by
  rw [localSymbol?, h]
  by_cases hp : p
  · rw [if_pos hp, if_pos hp, Option.bind_none]
  · rw [if_neg hp, if_neg hp]
    by_cases hlive : a.isLive id
    · rw [if_pos hlive, localSymbol?]
    · rw [if_neg hlive]
      exact localSymbol?_of_not_isLive hlive name

/-- A change drops a scope, binds the name in it if it is live, or leaves what is bound there. -/
theorem localSymbol?_apply (change : Change) (id : Int) (name : String) :
    (change.apply a).localSymbol? id name =
      if change.drops id then none
      else if a.isLive id then (change.binds? id name).or (a.localSymbol? id name)
      else none := by
  have hdead := fun h : ¬ a.isLive id => localSymbol?_of_not_isLive h name
  have hinsert : ∀ place x symbol, (a.insert place x symbol).localSymbol? id name =
      if a.isLive id then
        (if place = id ∧ x = name then some symbol else none).or (a.localSymbol? id name)
      else none := by
    intro place x symbol
    rw [localSymbol?_insert]
    by_cases hlive : a.isLive id
    · by_cases hhere : place = id ∧ x = name
      · simp [hlive, hhere]
      · simp [hlive, hhere]
    · simp [hlive, hdead]
  cases change with
  | push x parent =>
    simp only [Change.apply, Change.drops, Change.binds?, Option.none_or, Bool.false_eq_true,
      if_false]
    by_cases hlive : a.isLive id
    · have hid : id ≠ a.depth := by
        have hlt := (isLive_iff.mp hlive).2
        omega
      rw [if_pos hlive, localSymbol?, scope?_push, if_neg hid, localSymbol?]
    · rw [if_neg hlive, localSymbol?, scope?_push]
      split
      · rfl
      · exact hdead hlive
  | pop first =>
    simp only [Change.apply, Change.drops, Change.binds?, Option.none_or, Bool.and_eq_true,
      decide_eq_true_eq]
    exact localSymbol?_of_drops (scope?_pop first) name
  | reset =>
    simp only [Change.apply, Change.drops, Change.binds?, Option.none_or, decide_eq_true_eq]
    exact localSymbol?_of_drops scope?_reset name
  | insert place x symbol => exact hinsert place x symbol
  | define place x v => exact hinsert place x (.of v)

end Bindings

section Histories

variable {past : List Change} {id : Int} {name : String} {symbol : Symbol}

private theorem drops_of_binds? {change : Change} (h : change.binds? id name = some symbol) :
    change.drops id = false := by
  cases change with
  | insert | define => rfl
  | push | pop | reset => cases h

/-- The latest change binds the name, or it leaves the binding that is there. -/
private theorem newest_cons (change : Change) :
    Newest (change :: past) id name symbol ↔
      ((after past).isLive id ∧ change.binds? id name = some symbol) ∨
        (change.drops id = false ∧ change.binds? id name = none ∧ Newest past id name symbol) := by
  constructor
  · rintro ⟨later, c, earlier, hpast, hlive, hbinds, hlater⟩
    cases later with
    | nil =>
      obtain ⟨rfl, rfl⟩ := List.cons.inj hpast
      exact .inl ⟨hlive, hbinds⟩
    | cons d later =>
      obtain ⟨rfl, rfl⟩ := List.cons.inj hpast
      have hd := hlater change List.mem_cons_self
      have hrest := fun c hc => hlater c (List.mem_cons_of_mem _ hc)
      exact .inr ⟨hd.1, hd.2, later, c, earlier, rfl, hlive, hbinds, hrest⟩
  · rintro (⟨hlive, hbinds⟩ | ⟨hdrops, hnone, later, c, earlier, rfl, hlive, hbinds, hlater⟩)
    · exact ⟨[], change, past, rfl, hlive, hbinds, by simp⟩
    · refine ⟨change :: later, c, earlier, rfl, hlive, hbinds, ?_⟩
      simpa using ⟨⟨hdrops, hnone⟩, hlater⟩

/-- A scope binds a name to what was bound last under it there. -/
theorem localSymbol?_eq_some_iff :
    (after past).localSymbol? id name = some symbol ↔ Newest past id name symbol := by
  induction past with
  | nil =>
    have hnone : (after []).localSymbol? id name = none := by
      cases id with
      | ofNat n =>
        cases n with
        | zero => rfl
        | succ n => rfl
      | negSucc n => rfl
    rw [hnone]
    constructor
    · intro h
      cases h
    · rintro ⟨later, change, earlier, hpast, -⟩
      simp at hpast
  | cons change past ih =>
    rw [newest_cons, ← ih, after, localSymbol?_apply]
    cases hbinds : change.binds? id name with
    | some s =>
      rw [drops_of_binds? hbinds]
      by_cases hlive : (after past).isLive id
      · simp [hlive]
      · simp [hlive]
    | none =>
      have hlive : (after past).localSymbol? id name = some symbol → (after past).isLive id :=
        isLive_of_localSymbol?
      cases hdrops : change.drops id with
      | true => simp
      | false => simpa using hlive

end Histories

/-- The global scope is there and has no parent, and every other live scope is one level above its
parent, which is live and of a smaller place. -/
structure WellNested (a : Arena) : Prop where
  live : a.isLive global
  root : a.parent? global = none
  parent : ∀ id, a.isLive id → id ≠ global →
    ∃ p, a.parent? id = some p ∧ a.isLive p ∧ p < id ∧ a.level id = a.level p + 1

/-- An arena without some of the scopes is well nested if the global scope is left, and with a scope
its parent. -/
private theorem WellNested.restrict {a b : Arena} (h : a.WellNested)
    (hsub : ∀ id, b.isLive id → b.parent? id = a.parent? id ∧ b.level id = a.level id ∧ a.isLive id)
    (hglobal : b.isLive global)
    (hdown : ∀ id p, b.isLive id → a.isLive p → p < id → b.isLive p) : b.WellNested where
  live := hglobal
  root := (hsub global hglobal).1.trans h.root
  parent id hlive hid := by
    obtain ⟨hparent, hlevel, hlivea⟩ := hsub id hlive
    obtain ⟨p, hp, hlivep, hlt, hstep⟩ := h.parent id hlivea hid
    have hlivep' := hdown id p hlive hlivep hlt
    refine ⟨p, hparent.trans hp, hlivep', hlt, ?_⟩
    rw [hlevel, hstep, (hsub p hlivep').2.1]

section Steps

variable {a : Arena}

private theorem WellNested.new : ({} : Arena).WellNested where
  live := rfl
  root := rfl
  parent id hlive hid := by
    have hbounds := isLive_iff.mp hlive
    have hdepth : ({} : Arena).depth = 1 := rfl
    rw [hdepth] at hbounds
    have hg : global = 0 := rfl
    omega

/-- What is told of a scope by `scope?` is told of it by its parent and its level. -/
private theorem same_of_scope? {b : Arena} {id : Int} (h : b.scope? id = a.scope? id) :
    b.parent? id = a.parent? id ∧ b.level id = a.level id := by
  simp only [parent?, level, h, and_self]

private theorem WellNested.push (h : a.WellNested) {parent : Int} (hparent : a.isLive parent)
    (name : String) : (a.push name parent).2.WellNested := by
  have hold : ∀ id, a.isLive id → (a.push name parent).2.scope? id = a.scope? id := by
    intro id hlive
    have hlt := (isLive_iff.mp hlive).2
    rw [scope?_push, if_neg (by omega)]
  have holdLive : ∀ id, a.isLive id → (a.push name parent).2.isLive id := by
    intro id hlive
    rw [isLive, hold id hlive]
    exact hlive
  have hbounds := isLive_iff.mp hparent
  have hg : global = 0 := rfl
  refine ⟨holdLive global h.live, (same_of_scope? (hold global h.live)).1.trans h.root, ?_⟩
  intro id hlive hid
  by_cases hnew : id = a.depth
  · have hscope : (a.push name parent).2.scope? id =
        some { name, parent, level := a.level parent + 1 } := by
      rw [scope?_push, if_pos hnew]
    have hne : parent ≠ -1 := by omega
    have hlevel := (same_of_scope? (hold parent hparent)).2
    refine ⟨parent, ?_, holdLive parent hparent, by omega, ?_⟩
    · simp [parent?, hscope, hne]
    · rw [hlevel]
      simp [level, hscope]
  · have hlivea : a.isLive id := by
      rw [isLive, scope?_push, if_neg hnew] at hlive
      exact hlive
    obtain ⟨p, hp, hlivep, hlt, hstep⟩ := h.parent id hlivea hid
    refine ⟨p, ?_, holdLive p hlivep, hlt, ?_⟩
    · rw [(same_of_scope? (hold id hlivea)).1, hp]
    · rw [(same_of_scope? (hold id hlivea)).2, (same_of_scope? (hold p hlivep)).2, hstep]

/-- With a scope all scopes of higher places may be dropped. -/
private theorem WellNested.drop (h : a.WellNested) {b : Arena} {p : Int → Prop} [DecidablePred p]
    (hb : ∀ id, b.scope? id = if p id then none else a.scope? id) (hglobal : ¬ p global)
    (hdown : ∀ id q, q < id → ¬ p id → ¬ p q) : b.WellNested := by
  have hlive_iff : ∀ id, b.isLive id ↔ ¬ p id ∧ a.isLive id := by
    intro id
    rw [isLive, hb]
    by_cases hdrops : p id
    · simp [hdrops]
    · rw [if_neg hdrops]
      exact ⟨fun hlive => ⟨hdrops, hlive⟩, fun hlive => hlive.2⟩
  apply h.restrict
  · intro id hlive
    obtain ⟨hkept, hlivea⟩ := (hlive_iff id).mp hlive
    have hscope : b.scope? id = a.scope? id := by rw [hb, if_neg hkept]
    exact ⟨(same_of_scope? hscope).1, (same_of_scope? hscope).2, hlivea⟩
  · exact (hlive_iff global).mpr ⟨hglobal, h.live⟩
  · intro id q hlive hq hlt
    have hkept := ((hlive_iff id).mp hlive).1
    exact (hlive_iff q).mpr ⟨hdown id q hlt hkept, hq⟩

private theorem WellNested.pop (h : a.WellNested) (first : Int) : (a.pop first).WellNested := by
  apply h.drop fun _ => scope?_pop first
  · omega
  · omega

private theorem WellNested.reset (h : a.WellNested) : a.reset.WellNested := by
  apply h.drop fun _ => scope?_reset
  · omega
  · omega

private theorem WellNested.insert (h : a.WellNested) (place : Int) (x : String)
    (symbol : Symbol) : (a.insert place x symbol).WellNested := by
  have hsame : ∀ id, (a.insert place x symbol).parent? id = a.parent? id ∧
      (a.insert place x symbol).level id = a.level id ∧
      (a.insert place x symbol).isLive id = a.isLive id := by
    intro id
    simp only [parent?, level, isLive, scope?_insert]
    by_cases hplace : place = id
    · cases a.scope? id <;> simp [hplace, Scope.insert]
    · simp [hplace]
  apply h.restrict
  · intro id hlive
    obtain ⟨hparent, hlevel, hlivea⟩ := hsame id
    exact ⟨hparent, hlevel, hlivea ▸ hlive⟩
  · exact (hsame global).2.2 ▸ h.live
  · intro id p _ hp _
    exact (hsame p).2.2 ▸ hp

end Steps

/-- Whatever happens to an arena, its scopes stay well nested if new ones are pushed onto live
ones. -/
theorem wellNested_after {past : List Change} (h : Grounded past) : (after past).WellNested := by
  induction past with
  | nil => exact .new
  | cons change past ih =>
    cases change with
    | push name parent => exact (ih h.2).push h.1 name
    | pop id => exact (ih h).pop id
    | reset => exact (ih h).reset
    | insert id name symbol => exact (ih h).insert id name symbol
    | define id name v => exact (ih h).insert id name (.of v)

/-- A scope, its parent, the parent of that and so on, to one without a parent. -/
inductive Lineage (a : Arena) : Int → List Int → Prop
  | root {id : Int} (h : a.parent? id = none) : Lineage a id [id]
  | child {id p : Int} {ancestors : List Int} (h : a.parent? id = some p)
    (rest : Lineage a p ancestors) : Lineage a id (id :: ancestors)

/-- A look-up that may go on for long enough goes through the lineage of its scope. -/
theorem Lineage.symbolFrom {a : Arena} {id : Int} {chain : List Int} (h : a.Lineage id chain)
    (name : String) {fuel : Nat} (hfuel : chain.length ≤ fuel) :
    a.symbolFrom name fuel id = chain.findSome? fun place => a.localSymbol? place name := by
  induction h generalizing fuel with
  | @root id hparent =>
    cases fuel with
    | zero => simp at hfuel
    | succ fuel =>
      simp only [Arena.symbolFrom, hparent, List.findSome?_cons, List.findSome?_nil]
      cases a.localSymbol? id name <;> rfl
  | @child id p ancestors hparent _ ih =>
    cases fuel with
    | zero => simp at hfuel
    | succ fuel =>
      have hrest : a.symbolFrom name fuel p =
          ancestors.findSome? fun place => a.localSymbol? place name := ih (by simpa using hfuel)
      simp only [Arena.symbolFrom, hparent, List.findSome?_cons, hrest]
      cases a.localSymbol? id name <;> rfl

/-- The lineage of a live scope goes down to the global one. -/
theorem WellNested.exists_lineage {a : Arena} (h : a.WellNested) {id : Int} (hid : a.isLive id) :
    ∃ chain, a.Lineage id chain ∧ chain.Pairwise (· > ·) ∧ (∀ place ∈ chain, place ≤ id) ∧
      chain.getLast? = some global ∧ chain.length ≤ a.depth := by
  -- places get smaller from child to parent, so there are at most as many as the first one says
  suffices hchain : ∀ n : Nat, ∀ place : Int, place = n → a.isLive place →
      ∃ chain, a.Lineage place chain ∧ chain.Pairwise (· > ·) ∧ (∀ q ∈ chain, q ≤ place) ∧
        chain.getLast? = some global ∧ chain.length ≤ n + 1 by
    have hbounds := isLive_iff.mp hid
    have hg : global = 0 := rfl
    obtain ⟨chain, hlineage, hdown, hle, hlast, hlength⟩ :=
      hchain id.toNat id (by omega) hid
    exact ⟨chain, hlineage, hdown, hle, hlast, by omega⟩
  intro n
  induction n using Nat.strongRecOn with
  | ind n ih =>
    intro place hplace hlive
    by_cases hglobal : place = global
    · subst hglobal
      exact ⟨[global], .root h.root, by simp, by simp, rfl, by simp⟩
    · obtain ⟨p, hparent, hlivep, hlt, -⟩ := h.parent place hlive hglobal
      have hbounds := isLive_iff.mp hlivep
      have hg : global = 0 := rfl
      obtain ⟨chain, hlineage, hdown, hle, hlast, hlength⟩ :=
        ih p.toNat (by omega) p (by omega) hlivep
      refine ⟨place :: chain, .child hparent hlineage, ?_, ?_, ?_, ?_⟩
      · rw [List.pairwise_cons]
        refine ⟨fun q hq => ?_, hdown⟩
        have hq := hle q hq
        omega
      · intro q hq
        rcases List.mem_cons.mp hq with rfl | hq
        · exact Int.le_refl _
        · have hq := hle q hq
          omega
      · simp [List.getLast?_cons, hlast]
      · rw [List.length_cons]
        omega

/-- What was bound last under a name in the first of some scopes in which it is bound. -/
def Innermost (past : List Change) (chain : List Int) (name : String) (symbol : Symbol) : Prop :=
  ∃ inner place outer, chain = inner ++ place :: outer ∧ Newest past place name symbol ∧
    ∀ id ∈ inner, ∀ s, ¬ Newest past id name s

theorem findSome?_eq_some_iff_innermost {past : List Change} {chain : List Int} {name : String}
    {symbol : Symbol} :
    (chain.findSome? fun place => (after past).localSymbol? place name) = some symbol ↔
      Innermost past chain name symbol := by
  have hnone : ∀ id, (after past).localSymbol? id name = none ↔ ∀ s, ¬ Newest past id name s := by
    intro id
    rw [Option.eq_none_iff_forall_ne_some]
    simp only [ne_eq, localSymbol?_eq_some_iff]
  simp only [List.findSome?_eq_some_iff, Innermost, localSymbol?_eq_some_iff, hnone]

/-- The laws of arenas into which scopes are only pushed onto live ones. The live scopes are well
nested. To drop a scope drops those of higher places with it and nothing else, and the global one is
never dropped. A new scope is empty, whatever had its place before. A name is looked up in a live
scope, or along its lineage, in no more steps than there are scopes, and is found to be bound to
what was bound last under it, in the innermost scope in which it is bound. -/
theorem scopes_lawful (past : List Change) (h : Grounded past) :
    (after past).WellNested ∧
    (∀ first id, ((after past).pop first).scope? id =
      if global < first ∧ first ≤ id then none else (after past).scope? id) ∧
    (∀ name parent id, ((after past).push name parent).2.scope? id =
      if id = ((after past).push name parent).1 then
        some { name, parent, level := (after past).level parent + 1, symbols := [] }
      else (after past).scope? id) ∧
    (∀ id name symbol, (after past).localSymbol? id name = some symbol ↔
      Newest past id name symbol) ∧
    (∀ id, (after past).isLive id → ∃ chain, (after past).Lineage id chain ∧
      chain.Pairwise (· > ·) ∧ chain.getLast? = some global ∧
      ∀ name, (∀ fuel, (after past).depth ≤ fuel →
          (after past).symbolFrom name fuel id = (after past).symbol? id name) ∧
        ∀ symbol, (after past).symbol? id name = some symbol ↔
          Innermost past chain name symbol) ∧
    ∀ id, ¬ (after past).isLive id → ∀ name, (after past).symbol? id name = none := by
  have hnested := wellNested_after h
  refine ⟨hnested, fun first id => scope?_pop first, fun name parent id => scope?_push name parent,
    fun id name symbol => localSymbol?_eq_some_iff, ?_, ?_⟩
  · intro id hid
    obtain ⟨chain, hlineage, hdown, -, hlast, hlength⟩ := hnested.exists_lineage hid
    refine ⟨chain, hlineage, hdown, hlast, fun name => ⟨?_, ?_⟩⟩
    · intro fuel hfuel
      have henough := hlineage.symbolFrom name (Nat.le_trans hlength hfuel)
      have hjust := hlineage.symbolFrom name hlength
      exact henough.trans hjust.symm
    · intro symbol
      rw [← findSome?_eq_some_iff_innermost, ← hlineage.symbolFrom name hlength]
      rfl
  · intro id hdead name
    have hscope := scope?_eq_none_iff.mpr hdead
    rw [symbol?]
    cases (after past).scopes.size with
    | zero => rfl
    | succ fuel => simp [symbolFrom, localSymbol?, parent?, hscope]

/-- A history in which a name is bound in a scope that is dropped, whose place is taken again. -/
def renewed : List Change :=
  [.define global "x" (.int 3), .push "h" global, .pop 1, .push "g" 1, .define 1 "x" (.int 2),
    .push "f" global, .define global "x" (.int 1)]

theorem scopes_lawful_renewed : Grounded renewed ∧ (after renewed).isLive 1 ∧
    (∀ s, ¬ Newest renewed 1 "x" s) ∧ Newest renewed global "x" (.of (.int 3)) ∧
    ∃ chain, (after renewed).Lineage 1 chain ∧
      Innermost renewed chain "x" (.of (.int 3)) := by
  have h : Grounded renewed := ⟨rfl, rfl, rfl, trivial⟩
  obtain ⟨-, -, -, hlocal, hlive, -⟩ := scopes_lawful renewed h
  obtain ⟨chain, hlineage, -, -, hname⟩ := hlive 1 rfl
  have hnone : (after renewed).localSymbol? 1 "x" = none := rfl
  refine ⟨h, rfl, fun s hs => ?_, (hlocal _ _ _).mp rfl, chain, hlineage, ?_⟩
  · have hsome := (hlocal 1 "x" s).mpr hs
    rw [hnone] at hsome
    cases hsome
  · exact ((hname "x").2 _).mp rfl

end Kotoba.Arena
