import Kotoba.Proofs.Machine.Forgetful
import Kotoba.Proofs.Scope.Content

/-! The keys of calls. As long as arguments are scalars, the content of the scope of a call tells
the function by its name, and the arguments. -/
namespace Kotoba

theorem Symbol.value_of (v : Value) : (Symbol.of v).value = v := by cases v <;> rfl

namespace Machine

/-- The content of the scope in which a call runs. -/
def callContent (f : Function) (args : List Value) : Bytes :=
  Scope.content { name := f.name, symbols := bound (f.params.zip args) [] } {}

private theorem keys_insertInto {as bs : List (String × Symbol)} (x : String) (s t : Symbol)
    (h : as.map (·.1) = bs.map (·.1)) :
    (Scope.insertInto x s as).map (·.1) = (Scope.insertInto x t bs).map (·.1) := by
  induction as generalizing bs with
  | nil =>
    cases bs with
    | nil => rfl
    | cons b bs => cases h
  | cons a as ih =>
    cases bs with
    | nil => cases h
    | cons b bs =>
      obtain ⟨y, s'⟩ := a
      obtain ⟨z, t'⟩ := b
      simp only [List.map_cons, List.cons.injEq] at h
      obtain ⟨rfl, h⟩ := h
      simp only [Scope.insertInto]
      split
      · simp [h]
      · split
        · simp [h]
        · simp [ih h]

private theorem keys_bound {as bs : List (String × Value)} {cs ds : List (String × Symbol)}
    (h : as.map (·.1) = bs.map (·.1)) (h' : cs.map (·.1) = ds.map (·.1)) :
    (bound as cs).map (·.1) = (bound bs ds).map (·.1) := by
  induction as generalizing bs cs ds with
  | nil =>
    cases bs with
    | nil => exact h'
    | cons b bs => cases h
  | cons a as ih =>
    cases bs with
    | nil => cases h
    | cons b bs =>
      simp only [List.map_cons, List.cons.injEq] at h
      simp only [bound]
      refine ih h.2 ?_
      rw [h.1]
      exact keys_insertInto _ _ _ h'

/-- What is bound in the scope of a call are the arguments. -/
theorem mem_bound {pairs : List (String × Value)} {bindings : List (String × Symbol)}
    {b : String × Symbol} (h : b ∈ bound pairs bindings) :
    (∃ v, (b.1, v) ∈ pairs ∧ b.2 = .of v) ∨ b ∈ bindings := by
  induction pairs generalizing bindings with
  | nil => exact .inr h
  | cons pair rest ih =>
    obtain ⟨v, hv, hb⟩ | h := ih h
    · exact .inl ⟨v, List.mem_cons_of_mem _ hv, hb⟩
    · obtain rfl | h := Scope.mem_insertInto h
      · exact .inl ⟨pair.2, List.mem_cons_self, rfl⟩
      · exact .inr h

/-- Parameters that are bound once keep their arguments. -/
theorem lookup_bound {pairs : List (String × Value)} {bindings : List (String × Symbol)}
    (hp : isBindable pairs bindings) {x : String} :
    (∀ v, (x, v) ∈ pairs → (bound pairs bindings).lookup x = some (.of v)) ∧
      ∀ s, bindings.lookup x = some s → (bound pairs bindings).lookup x = some s := by
  induction pairs generalizing bindings with
  | nil => exact ⟨fun v h => absurd h List.not_mem_nil, fun s h => h⟩
  | cons pair rest ih =>
    obtain ⟨y, w⟩ := pair
    simp only [isBindable, Bool.and_eq_true, Option.isNone_iff_eq_none] at hp
    obtain ⟨hrest, hkeep⟩ := ih hp.2
    refine ⟨fun v hv => ?_, fun s hs => hkeep s ?_⟩
    · simp only [List.mem_cons, Prod.mk.injEq] at hv
      obtain ⟨rfl, rfl⟩ | hv := hv
      · exact hkeep _ (by rw [Scope.lookup_insertInto, if_pos rfl])
      · exact hrest v hv
    · rw [Scope.lookup_insertInto, if_neg, hs]
      rintro rfl
      rw [hs] at hp
      cases hp.1

private theorem scalar_bound {f : Function} {args : List Value} (h : ∀ v ∈ args, v.isScalar) :
    ∀ b ∈ bound (f.params.zip args) [], b.2.value.isScalar ∧ b.2 = .of b.2.value := by
  intro b hb
  obtain ⟨v, hv, hs⟩ | hb := mem_bound hb
  · rw [hs, Symbol.value_of]
    exact ⟨h v (List.of_mem_zip hv).2, rfl⟩
  · cases hb

/-- The content of the scope of a call is the same on whatever machine the call is made. -/
theorem content_entered {f : Function} {args : List Value} (h : ∀ v ∈ args, v.isScalar)
    (b : Machine) (span : Span) :
    ((entered b ⟨f.name, span⟩ (bound (f.params.zip args) [])).arena.scope? b.arena.top).map
      (fun s => s.content b.store) = some (callContent f args) := by
  have hscalar := fun binding hb => (scalar_bound (f := f) h binding hb).1
  simp only [entered, Arena.scope?_above_top, Option.map_some, Option.some.injEq, callContent]
  rw [Scope.content_of_isScalar hscalar, Scope.content_of_isScalar hscalar]

/-- Calls with the same content of their scopes are calls of functions of the same name. -/
theorem name_of_callContent {f g : Function} {args others : List Value}
    (hf : '\x00' ∉ f.name.toList) (hg : '\x00' ∉ g.name.toList)
    (hargs : ∀ v ∈ args, v.isScalar) (hothers : ∀ v ∈ others, v.isScalar)
    (h : callContent f args = callContent g others) : f.name = g.name := by
  have hs := fun binding hb => (scalar_bound (f := f) hargs binding hb).1
  have ht := fun binding hb => (scalar_bound (f := g) hothers binding hb).1
  rw [callContent, callContent, Scope.content_of_isScalar hs, Scope.content_of_isScalar ht] at h
  exact (Scope.name_of_contentChars hf hg (String.ofList_injective (Bytes.ofString_injective h))).1

/-- Calls of one function with the same content of their scopes have the same arguments. -/
theorem args_of_callContent {f : Function} {args others : List Value}
    (hf : '\x00' ∉ f.name.toList) (hargs : ∀ v ∈ args, v.isScalar)
    (hothers : ∀ v ∈ others, v.isScalar) (hlen : args.length = f.params.length)
    (hlen' : others.length = f.params.length) (hp : isBindable (f.params.zip args) [])
    (hp' : isBindable (f.params.zip others) [])
    (h : callContent f args = callContent f others) : args = others := by
  have hs := scalar_bound (f := f) hargs
  have ht := scalar_bound (f := f) hothers
  rw [callContent, callContent, Scope.content_of_isScalar fun b hb => (hs b hb).1,
    Scope.content_of_isScalar fun b hb => (ht b hb).1] at h
  have hchars := (Scope.name_of_contentChars hf hf
    (String.ofList_injective (Bytes.ofString_injective h))).2
  have hkeys : (f.params.zip args).map (·.1) = (f.params.zip others).map (·.1) := by
    rw [List.map_fst_zip (by omega), List.map_fst_zip (by omega)]
  have hbound := Scope.bindings_of_chars (keys_bound hkeys rfl) hs ht hchars
  refine List.ext_getElem (hlen.trans hlen'.symm) fun i hi hi' => ?_
  have hparam : i < f.params.length := by omega
  have hleft := (lookup_bound hp).1 args[i]
    (List.mem_iff_getElem.mpr ⟨i, by rw [List.length_zip]; omega, List.getElem_zip⟩)
  have hright := (lookup_bound hp').1 others[i]
    (List.mem_iff_getElem.mpr ⟨i, by rw [List.length_zip]; omega, List.getElem_zip⟩)
  rw [hbound, hright] at hleft
  have hvalue := congrArg Symbol.value (Option.some.inj hleft)
  rw [Symbol.value_of, Symbol.value_of] at hvalue
  exact hvalue.symm

/-- Arguments with the same tagged texts are bound alike. -/
theorem alike_bound {s t : Store} {params : List String} {args others : List Value}
    {as bs : List (String × Symbol)} (hbindings : List.Forall₂ (Scope.Alike s t) as bs)
    (hargs : args.map s.serialize = others.map t.serialize) :
    List.Forall₂ (Scope.Alike s t) (bound (params.zip args) as)
      (bound (params.zip others) bs) := by
  induction params generalizing args others as bs with
  | nil => exact hbindings
  | cons x params ih =>
    cases args with
    | nil =>
      cases others with
      | nil => exact hbindings
      | cons w others => cases hargs
    | cons v args =>
      cases others with
      | nil => cases hargs
      | cons w others =>
        obtain ⟨hvalue, hrest⟩ := List.cons.inj hargs
        have hkind : (Symbol.of v).kind = (Symbol.of w).kind := by
          rw [← Value.kindOfTag_serialize s v, hvalue, Value.kindOfTag_serialize t w]
        have hsymbol : Scope.Alike s t (x, .of v) (x, .of w) := by
          refine ⟨rfl, hkind, ?_⟩
          rw [Symbol.value_of, Symbol.value_of]
          exact hvalue
        exact ih (Scope.alike_insertInto hbindings hsymbol) hrest

end Machine

end Kotoba
