import Kotoba.Proofs.Scope.Content
import Kotoba.Proofs.Scope.History

/-! Scopes are kept in a canonical form. The names that are bound in a scope stand in order, each of
them once, whatever happened to its arena. So the digest of a scope depends on its name and on what
is found in it, and on nothing else in its history. -/
namespace Kotoba

namespace Scope

/-- Each name is bound once, and the names are in order. -/
def Ordered (bindings : List (String × Symbol)) : Prop :=
  bindings.Pairwise fun a b => a.1 < b.1

/-- Symbols of one kind whose values have the same tagged text. -/
def SameText (s t : Store) (u w : Symbol) : Prop :=
  u.kind = w.kind ∧ s.serialize u.value = t.serialize w.value

/-- A binding is put where its name belongs, or takes the place of the one that is there. -/
theorem Ordered.insertInto {bindings : List (String × Symbol)} (h : Ordered bindings) (x : String)
    (symbol : Symbol) : Ordered (insertInto x symbol bindings) := by
  induction bindings with
  | nil => exact List.pairwise_singleton _ _
  | cons first rest ih =>
    obtain ⟨n, u⟩ := first
    obtain ⟨hfirst, hrest⟩ := List.pairwise_cons.mp h
    simp only [Scope.insertInto]
    by_cases hlt : x < n
    · rw [if_pos hlt]
      refine List.pairwise_cons.mpr ⟨fun b hb => ?_, h⟩
      rcases List.mem_cons.mp hb with rfl | hb
      · exact hlt
      · exact String.lt_trans hlt (hfirst b hb)
    · rw [if_neg hlt]
      by_cases heq : n = x
      · rw [if_pos heq, ← heq]
        exact List.pairwise_cons.mpr ⟨hfirst, hrest⟩
      · rw [if_neg heq]
        have hgt : n < x := by
          apply String.not_le.mp
          intro hle
          exact heq (String.le_antisymm (String.not_lt.mp hlt) hle)
        refine List.pairwise_cons.mpr ⟨fun b hb => ?_, ih hrest⟩
        rcases mem_insertInto hb with rfl | hb
        · exact hgt
        · exact hfirst b hb

private theorem lookup_eq_none {n : String} {bindings : List (String × Symbol)}
    (h : ∀ b ∈ bindings, n < b.1) : bindings.lookup n = none := by
  rw [List.lookup_eq_none_iff]
  intro b hb
  have hne : n ≠ b.1 := fun heq => String.lt_irrefl b.1 (heq ▸ h b hb)
  simpa using hne

/-- The first name that is bound in order is not after one that is found. -/
private theorem first_le {a : String × Symbol} {as : List (String × Symbol)} {x : String}
    {symbol : Symbol} (h : Ordered (a :: as)) (hx : (a :: as).lookup x = some symbol) :
    a.1 ≤ x := by
  obtain ⟨before, after, hsplit, -⟩ := List.lookup_eq_some_iff.mp hx
  have hmem : (x, symbol) ∈ a :: as := by simp [hsplit]
  rcases List.mem_cons.mp hmem with rfl | hmem
  · exact String.le_refl _
  · exact String.not_lt.mp (String.lt_asymm ((List.pairwise_cons.mp h).1 _ hmem))

/-- Bindings in order are alike one by one if what is found by look-ups is alike. -/
theorem alike_of_lookup {s t : Store} {as bs : List (String × Symbol)} (has : Ordered as)
    (hbs : Ordered bs) (h : ∀ x, Option.Rel (SameText s t) (as.lookup x) (bs.lookup x)) :
    List.Forall₂ (Alike s t) as bs := by
  induction as generalizing bs with
  | nil =>
    cases bs with
    | nil => exact .nil
    | cons b bs =>
      have hb := h b.1
      rw [List.lookup_cons_self] at hb
      cases hb
  | cons a as ih =>
    cases bs with
    | nil =>
      have ha := h a.1
      rw [List.lookup_cons_self] at ha
      cases ha
    | cons b bs =>
      obtain ⟨x, u⟩ := a
      obtain ⟨y, w⟩ := b
      obtain ⟨hfirst, has'⟩ := List.pairwise_cons.mp has
      obtain ⟨hfirst', hbs'⟩ := List.pairwise_cons.mp hbs
      -- each of the first names is found in the other bindings, so neither is before the other
      have hxy : x = y := by
        have hx := h x
        have hy := h y
        rw [List.lookup_cons_self] at hx hy
        cases hw : List.lookup x ((y, w) :: bs) with
        | none =>
          rw [hw] at hx
          cases hx
        | some w' =>
          cases hu : List.lookup y ((x, u) :: as) with
          | none =>
            rw [hu] at hy
            cases hy
          | some u' => exact String.le_antisymm (first_le has hu) (first_le hbs hw)
      subst hxy
      refine .cons ?_ (ih has' hbs' fun z => ?_)
      · have hx := h x
        rw [List.lookup_cons_self, List.lookup_cons_self] at hx
        cases hx with
        | some hsame => exact ⟨rfl, hsame⟩
      · by_cases hz : z = x
        · subst hz
          rw [lookup_eq_none hfirst, lookup_eq_none hfirst']
          exact .none
        · have hz' := h z
          have hbeq : (z == x) = false := by simpa using hz
          rw [List.lookup_cons, List.lookup_cons, hbeq] at hz'
          exact hz'

end Scope

namespace Arena

/-- The bindings of every scope are in order. -/
def Ordered (a : Arena) : Prop := ∀ id s, a.scope? id = some s → Scope.Ordered s.symbols

private theorem Ordered.insert {a : Arena} (h : a.Ordered) (place : Int) (x : String)
    (symbol : Symbol) : (a.insert place x symbol).Ordered := by
  intro id s hs
  rw [scope?_insert] at hs
  by_cases hplace : place = id
  · rw [if_pos hplace] at hs
    obtain ⟨old, hold, rfl⟩ := Option.map_eq_some_iff.mp hs
    exact (h id old hold).insertInto x symbol
  · rw [if_neg hplace] at hs
    exact h id s hs

/-- Whatever happens to an arena, the bindings of its scopes are in order. -/
theorem ordered_after (past : List Change) : (after past).Ordered := by
  induction past with
  | nil =>
    intro id s hs
    cases id with
    | negSucc n => cases hs
    | ofNat n =>
      cases n with
      | zero =>
        cases hs
        exact .nil
      | succ n => cases hs
  | cons change past ih =>
    cases change with
    | push name parent =>
      intro id s hs
      rw [after, Change.apply, scope?_push] at hs
      split at hs
      · cases hs
        exact .nil
      · exact ih id s hs
    | pop first =>
      intro id s hs
      rw [after, Change.apply, scope?_pop] at hs
      split at hs
      · cases hs
      · exact ih id s hs
    | reset =>
      intro id s hs
      rw [after, Change.apply, scope?_reset] at hs
      split at hs
      · cases hs
      · exact ih id s hs
    | insert place x symbol => exact ih.insert place x symbol
    | define place x v => exact ih.insert place x (.of v)

/-- Scopes of one name in which the same names are bound, to symbols of the same kind with the same
tagged text, have one digest. It is all the same in which order the names were bound and how often,
which places the scopes have, on which scopes they were pushed, and what there is beside them. -/
theorem digest_eq_of_bindings (past past' : List Change) (s t : Store) (i j : Int)
    (hi : (after past).isLive i) (hj : (after past').isLive j)
    (hname : (after past).name i = (after past').name j)
    (h : ∀ x, Option.Rel (Scope.SameText s t) ((after past).localSymbol? i x)
      ((after past').localSymbol? j x)) :
    (after past).digest s i = (after past').digest t j := by
  obtain ⟨a, ha⟩ := Option.isSome_iff_exists.mp hi
  obtain ⟨b, hb⟩ := Option.isSome_iff_exists.mp hj
  have hname' : a.name = b.name := by simpa [name, ha, hb] using hname
  have hlookup : ∀ x, Option.Rel (Scope.SameText s t) (a.symbols.lookup x)
      (b.symbols.lookup x) := by
    intro x
    have hx := h x
    rw [localSymbol?, localSymbol?, ha, hb] at hx
    exact hx
  have halike := Scope.alike_of_lookup (ordered_after past i a ha) (ordered_after past' j b hb)
    hlookup
  have hcontent := Scope.content_of_alike hname' halike
  rw [digest, digest, ha, hb]
  exact congrArg Digest.ofBytes hcontent

/-- The names are bound in another order, one of them twice, in a scope that is pushed after another
one, and the arrays are other ones with the same elements. -/
theorem digest_eq_of_bindings_rebound :
    (after [.define 1 "b" (.array 0), .define 1 "a" (.int 7), .push "f" global]).digest
        { arrays := #[#[.int 1]] } 1 =
      (after [.define 2 "a" (.int 7), .define global "a" .null, .define 2 "b" (.array 1),
        .define 2 "a" (.bool true), .push "f" 1, .push "g" global]).digest
        { arrays := #[#[], #[.int 1]] } 2 := by
  refine digest_eq_of_bindings _ _ _ _ 1 2 rfl rfl rfl fun x => ?_
  show Option.Rel _ (List.lookup x [("a", Symbol.of (.int 7)), ("b", .of (.array 0))])
    (List.lookup x [("a", Symbol.of (.int 7)), ("b", .of (.array 1))])
  by_cases ha : x = "a"
  · subst ha
    exact .some ⟨rfl, rfl⟩
  · by_cases hb : x = "b"
    · subst hb
      exact .some ⟨rfl, by rfl⟩
    · simp only [List.lookup_cons, beq_eq_false_iff_ne.mpr ha, beq_eq_false_iff_ne.mpr hb]
      exact .none

end Arena

end Kotoba
