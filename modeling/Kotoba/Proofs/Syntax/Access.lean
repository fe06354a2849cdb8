import Kotoba.Proofs.Syntax.Deaf
import Kotoba.Proofs.Syntax.Form

/-! Entries that begin with an element of an array. What follows the element decides between
statements and an expression, and the production that has already parsed the element goes on as
the ordinary one would. -/
namespace Kotoba.Syntax

open Token (Kind)
open Kotoba.Syntax.Parser

section Continuations

theorem deaf_slotUpdate (fuel : Nat) : Deaf (slotUpdate fuel) (slotUpdate fuel) :=
  .bind .here fun _ => (deaf_slot (deaf_sumExpr fuel)).bind fun _ =>
    deaf_updateOf (deaf_expression fuel) _ _

/-- The statements of a list are parsed in the same way wherever the list begins. -/
theorem deaf_statements_plainBody (fuel : Nat) :
    Deaf (statements (statement fuel) fuel) (Body.statements <$> plainBody fuel) := by
  rw [← bind_pure (statements (statement fuel) fuel), plainBody_eq, map_bind]
  refine .quiet_right (quiet_enter _) fun _ => ?_
  rw [map_bind]
  refine .quiet_right quiet_here fun _ => ?_
  rw [map_bind]
  refine (deaf_statements (deaf_statement fuel) fuel).bind fun front => ?_
  rw [map_bind]
  exact .quiet_right (quiet_finish _) fun _ => .pure front

theorem deaf_bodyFrom {x : Parser Stmt} {others others' : Parser (List Stmt)} (hx : Deaf x x)
    (hothers : Deaf others others') : Deaf (bodyFrom x others) (bodyFrom x others') :=
  .bind .here fun _ => hx.bind fun _ => deaf_skipSemicolon.bind fun _ => hothers.bind fun _ =>
    .spanned _ _

variable {fuel : Nat} {s s' : State} {target : Ident × Expr × Span}

/-- The element is assigned to: the update of its slot is the first of some statements. -/
theorem slotEntry_assigned (hslot : slot (sumExpr fuel) s = .ok target s')
    (hassign : s'.current.kind = .mark .assign) :
    slotEntry fuel s =
      (Node.body <$> bodyFrom (slotUpdate fuel) (Body.statements <$> plainBody fuel)) s := by
  have hhere : here s = .ok s.current.start s := rfl
  have hat : at? Mark.assign s' = .ok true s' := by rw [at?, Step.gets, hassign]; rfl
  have hupdate : slotUpdate fuel s = updateOf (expression fuel) target s.current.start s' := by
    rw [slotUpdate, Step.bind_apply, hhere]
    dsimp only
    rw [Step.bind_apply, hslot]
  -- what follows the update
  let rest (first : Stmt) : Parser Node := do
    skipSemicolon
    let rest ← plainBody fuel
    pure (.body ⟨first :: rest.statements, ← finish s.current.start⟩)
  have hentry : slotEntry fuel s =
      (updateOf (expression fuel) target s.current.start >>= rest) s' := by
    rw [slotEntry, Step.bind_apply, hhere]
    dsimp only
    rw [Step.bind_apply, hslot]
    dsimp only
    rw [Step.bind_apply, hat]
    rfl
  have hbody : (Node.body <$> bodyFrom (slotUpdate fuel) (Body.statements <$> plainBody fuel)) s =
      (slotUpdate fuel >>= rest) s := by
    simp only [bodyFrom, map_bind, bind_map_left, map_pure]
    rfl
  rw [hentry, hbody]
  exact (bind_apply_congr hupdate rest).symm

/-- The element is not assigned to: it is the first factor of an expression. -/
theorem slotEntry_unassigned
    (h : ∀ target s', slot (sumExpr fuel) s = .ok target s' → s'.current.kind ≠ .mark .assign) :
    slotEntry fuel s = (Node.expr <$> slotExpr fuel) s := by
  have hhere : here s = .ok s.current.start s := rfl
  rw [slotEntry, slotExpr, map_bind, Step.bind_apply, Step.bind_apply, hhere]
  dsimp only
  rw [map_bind, Step.bind_apply, Step.bind_apply]
  cases hslot : slot (sumExpr fuel) s with
  | ok target s' =>
    have hat : at? Mark.assign s' = .ok false s' := by
      rw [at?, Step.gets, beq_eq_false_iff_ne.mpr (h target s' hslot)]
    dsimp only
    rw [Step.bind_apply, hat]
    rfl
  | error d s' => rfl
  | exhausted => rfl

end Continuations

/-- The array and the index that begin an entry are followed by an assignment sign. -/
def Assigned (fuel : Nat) (s : State) : Prop :=
  ∃ target s', slot (sumExpr fuel) s = .ok target s' ∧ s'.current.kind = .mark .assign

instance (fuel : Nat) (s : State) : Decidable (Assigned fuel s) :=
  match h : slot (sumExpr fuel) s with
  | .ok target s' =>
    decidable_of_iff (s'.current.kind = .mark .assign) <| by
      constructor
      · exact fun hassign => ⟨target, s', h, hassign⟩
      · rintro ⟨_, _, hslot, hassign⟩
        rw [h] at hslot
        cases hslot
        exact hassign
  | .error _ _ | .exhausted => .isFalse <| by
    rintro ⟨_, _, hslot, -⟩
    rw [h] at hslot
    cases hslot

theorem Assigned.alike {fuel : Nat} {s t : State} (h : Assigned fuel s) (hst : Alike s t) :
    Assigned fuel t := by
  obtain ⟨target, s', hslot, hassign⟩ := h
  have hends := deaf_slot (deaf_sumExpr fuel) s t hst
  rw [hslot] at hends
  generalize ho : slot (sumExpr fuel) t = o at hends
  cases hends with
  | ok state => exact ⟨target, _, ho, by rw [state.current, hassign]⟩

theorem EndsAlike.ne_exhausted {α : Type} {o o' : Outcome State Diagnostic α} (h : EndsAlike o o')
    (ho : o' ≠ .exhausted) : o ≠ .exhausted := by
  cases h with
  | exhausted => exact ho
  | _ => rintro ⟨⟩

theorem map_ne_exhausted {α β : Type} {x : Parser α} {s : State} (f : α → β)
    (h : x s ≠ .exhausted) : (f <$> x) s ≠ .exhausted := by
  rw [map_eq_pure_bind, Step.bind_apply]
  cases hx : x s with
  | exhausted => exact absurd hx h
  | _ => rintro ⟨⟩

/-- An entry that begins with a name and a bracket. If an assignment sign follows the element, the
entry is parsed as a list of statements is, and otherwise as an expression is: with the same tree,
spans included, or the same diagnostic, and with the same tokens left. -/
theorem nameEntry_element {s : State} {ks : List Kind} {fuel : Nat} (hs : s.Proper)
    (hk : s.kinds = .identifier :: .mark .openBracket :: ks) (hlen : s.kinds.length < fuel) :
    nameEntry fuel s ≠ .exhausted ∧
      (Assigned fuel s → EndsAlike (nameEntry fuel s) ((Node.body <$> plainBody fuel) s)) ∧
      (¬ Assigned fuel s → EndsAlike (nameEntry fuel s) ((Node.expr <$> expression fuel) s)) := by
  obtain ⟨n, rfl⟩ : ∃ n, fuel = n + 1 := ⟨fuel - 1, by omega⟩
  have hle : ∀ _ : Unit, n + 1 ≤ n + 1 := fun _ => Nat.le_refl _
  obtain ⟨s₁, hpeek, halike₁⟩ := peek_ok hs hk (.inl (List.cons_ne_nil _ _))
  have hentry : nameEntry (n + 1) s = slotEntry (n + 1) s₁ := by
    rw [nameEntry, Step.bind_apply, hpeek]
    rfl
  have hbody : Assigned (n + 1) s →
      EndsAlike (nameEntry (n + 1) s) ((Node.body <$> plainBody (n + 1)) s) := by
    intro hassigned
    obtain ⟨target, s', hslot, hassign⟩ := hassigned.alike halike₁
    obtain ⟨s₂, halike₂, hplain⟩ := plainBody_slot hs hk hlen rfl
    have hnode : (Node.body <$> plainBody (n + 1)) s = (Node.body <$>
        bodyFrom (slotUpdate (n + 1)) (statements (statement (n + 1)) (n + 1))) s₂ := by
      rw [map_eq_pure_bind, map_eq_pure_bind]
      exact bind_apply_congr hplain _
    rw [hentry, slotEntry_assigned hslot hassign, hnode]
    have hdeaf := (deaf_bodyFrom (deaf_slotUpdate (n + 1)) (deaf_statements_plainBody (n + 1))).map
      Node.body
    exact (hdeaf s₂ s₁ (halike₂.symm.trans halike₁)).symm
  have hexpr : ¬ Assigned (n + 1) s →
      EndsAlike (nameEntry (n + 1) s) ((Node.expr <$> expression (n + 1)) s) := by
    intro hassigned
    have hother : ∀ target s', slot (sumExpr (n + 1)) s₁ = .ok target s' →
        s'.current.kind ≠ .mark .assign := fun target s' hslot hassign =>
      hassigned (Assigned.alike ⟨target, s', hslot, hassign⟩ halike₁.symm)
    have hnode : (Node.expr <$> expression (n + 1)) s = (Node.expr <$> slotExpr (n + 1)) s₁ := by
      rw [map_eq_pure_bind, map_eq_pure_bind]
      exact bind_apply_congr (expression_slot hs hk hlen hpeek halike₁) _
    rw [hentry, slotEntry_unassigned hother, hnode]
    exact .refl _
  have hhalts : nameEntry (n + 1) s ≠ .exhausted := by
    by_cases hassigned : Assigned (n + 1) s
    · have hends := Ends.of_reads (takes_plainBody hle).reads
      exact (hbody hassigned).ne_exhausted (map_ne_exhausted _ (hends.halts s hs hlen))
    · have hends := Ends.of_reads (takes_expression (.inl rfl) hle).reads
      exact (hexpr hassigned).ne_exhausted (map_ne_exhausted _ (hends.halts s hs hlen))
  exact ⟨hhalts, hbody, hexpr⟩

/-- The state at the first token of a text. -/
def firstState (limits : Token.Limits) (text : Bytes) : State :=
  let scan := Token.tokenize limits text
  match advance (.ofScan scan) with
  | .ok _ s => s
  | .error _ _ | .exhausted => .ofScan scan

theorem firstState_of_tokens (limits : Token.Limits) (text : Bytes)
    (h : (Token.tokenize limits text).tokens ≠ []) :
    (firstState limits text).Proper ∧ (firstState limits text).kinds = kindsOf limits text := by
  obtain ⟨s, hs, hproper, hleft, -⟩ | ⟨hnil, -⟩ := fetch (properScan_tokenize limits text)
  · have hfirst : firstState limits text = s := by simp only [firstState, hs]
    rw [hfirst]
    exact ⟨hproper, by rw [State.kinds, hleft, kindsOf]⟩
  · exact absurd hnil h

/-- An element that is assigned to with a statement after it, and a product that begins with one. -/
theorem nameEntry_element_pair :
    let s := firstState {} "a[i + 1] = 2; f(3)"
    let t := firstState {} "a[i + 1] * 2 < 3"
    s.Proper ∧ Assigned 20 s ∧ nameEntry 20 s ≠ .exhausted ∧
      EndsAlike (nameEntry 20 s) ((Node.body <$> plainBody 20) s) ∧
      t.Proper ∧ ¬ Assigned 20 t ∧ nameEntry 20 t ≠ .exhausted ∧
      EndsAlike (nameEntry 20 t) ((Node.expr <$> expression 20) t) := by
  intro s t
  have hkinds : kindsOf {} "a[i + 1] = 2; f(3)" = .identifier :: .mark .openBracket ::
      (kindsOf {} "a[i + 1] = 2; f(3)").drop 2 := by decide +kernel
  have hkinds' : kindsOf {} "a[i + 1] * 2 < 3" = .identifier :: .mark .openBracket ::
      (kindsOf {} "a[i + 1] * 2 < 3").drop 2 := by decide +kernel
  obtain ⟨hs, hks⟩ := firstState_of_tokens {} "a[i + 1] = 2; f(3)" (by decide +kernel)
  obtain ⟨ht, hkt⟩ := firstState_of_tokens {} "a[i + 1] * 2 < 3" (by decide +kernel)
  have hlen : s.kinds.length < 20 := by decide +kernel
  have hlen' : t.kinds.length < 20 := by decide +kernel
  have hassigned : Assigned 20 s := by decide +kernel
  have hother : ¬ Assigned 20 t := by decide +kernel
  obtain ⟨hhalts, hbody, -⟩ := nameEntry_element hs (hks.trans hkinds) hlen
  obtain ⟨hhalts', -, hexpr⟩ := nameEntry_element ht (hkt.trans hkinds') hlen'
  exact ⟨hs, hassigned, hhalts, hbody hassigned, ht, hother, hhalts', hexpr hother⟩

end Kotoba.Syntax
