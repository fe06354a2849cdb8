import Kotoba.Proofs.Syntax.Fuel

/-! What is parsed depends on what the tokens say and on nothing else. Two runs on tokens that say
the same yield trees that differ in their spans at most, or fail with the same message. -/
namespace Kotoba.Syntax

open Token (Lexeme Kind)
open Kotoba.Syntax.Parser

variable {α β γ δ : Type}

/-- States in which the tokens to come say the same. -/
structure Same (s t : State) : Prop where
  current : s.current.lexeme.said = t.current.lexeme.said
  ahead : s.ahead.map (·.lexeme.said) = t.ahead.map (·.lexeme.said)
  ending : ∃ e f, s.ending = .ok e ∧ t.ending = .ok f ∧ e.lexeme.said = f.lexeme.said

/-- Two diagnostics that differ in their places at most. -/
structure SameFault (d e : Diagnostic) : Prop where
  stage : d.stage = e.stage
  kind : d.kind = e.kind
  message : d.message = e.message
  cause : d.cause = e.cause

/-- Two ways to end that look the same to `view`. -/
inductive Agrees (view : α → γ) : Outcome State Diagnostic α → Outcome State Diagnostic α → Prop
  | ok {a b : α} {s t : State} (value : view a = view b) (state : Same s t) :
    Agrees view (.ok a s) (.ok b t)
  | error {d e : Diagnostic} {s t : State} (fault : SameFault d e) :
    Agrees view (.error d s) (.error e t)
  | exhausted : Agrees view .exhausted .exhausted

/-- Two productions that look the same to `view` on tokens that say the same. -/
def Blind (view : α → γ) (x y : Parser α) : Prop :=
  ∀ s t, Same s t → Agrees view (x s) (y t)

theorem eq_or_mark_of_said {l l' : Lexeme} (h : l.said = l'.said) :
    l = l' ∨ ∃ m w w', l = .mark m w ∧ l' = .mark m w' := by
  cases l <;> cases l' <;> simp_all [Lexeme.said]

theorem kind_of_said {l l' : Lexeme} (h : l.said = l'.said) : l.kind = l'.kind := by
  rw [← l.kind_said, h, l'.kind_said]

theorem Same.kind {s t : State} (h : Same s t) : s.current.kind = t.current.kind :=
  kind_of_said h.current

theorem Same.refl {s : State} (hc : s.clean) : Same s s where
  current := rfl
  ahead := rfl
  ending := by
    cases he : s.ending with
    | ok e => exact ⟨e, e, rfl, rfl, rfl⟩
    | error f => simp [State.clean, he] at hc

theorem Same.symm {s t : State} (h : Same s t) : Same t s where
  current := h.current.symm
  ahead := h.ahead.symm
  ending := by
    obtain ⟨e, f, he, hf, hef⟩ := h.ending
    exact ⟨f, e, hf, he, hef.symm⟩

theorem Agrees.symm {view : α → γ} {o o' : Outcome State Diagnostic α} (h : Agrees view o o') :
    Agrees view o' o := by
  cases h with
  | ok value state => exact .ok value.symm state.symm
  | error fault =>
    exact .error ⟨fault.stage.symm, fault.kind.symm, fault.message.symm, fault.cause.symm⟩
  | exhausted => exact .exhausted

/-- A token is described by what it says. -/
theorem description_of_said {t u : Token} (h : t.lexeme.said = u.lexeme.said) :
    t.description = u.description := by
  obtain h | ⟨m, w, w', ht, hu⟩ := eq_or_mark_of_said h
  · simp only [Token.description, h]
  · simp only [Token.description, ht, hu]

theorem sameFault_unexpectedAt {t u : Token} (h : t.lexeme.said = u.lexeme.said)
    (expected : List Bytes) : SameFault (unexpectedAt t expected) (unexpectedAt u expected) where
  stage := rfl
  kind := by
    have hk : t.kind = u.kind := kind_of_said h
    simp only [unexpectedAt, hk]
  message := by simp only [unexpectedAt, description_of_said h]
  cause := rfl

theorem Same.alike {s s' t t' : State} (h : Same s t) (hs : Alike s s') (ht : Alike t t') :
    Same s' t' where
  current := by rw [hs.current, ht.current, h.current]
  ahead := by rw [hs.ahead, ht.ahead, h.ahead]
  ending := by rw [hs.ending, ht.ending]; exact h.ending

/-- The token after the current one. -/
theorem Same.next {s t : State} (h : Same s t) :
    (∃ e f, s.ahead = [] ∧ t.ahead = [] ∧ s.ending = .ok e ∧ t.ending = .ok f ∧
      e.lexeme.said = f.lexeme.said) ∨
    ∃ u v us vs, s.ahead = u :: us ∧ t.ahead = v :: vs ∧ u.lexeme.said = v.lexeme.said ∧
      us.map (·.lexeme.said) = vs.map (·.lexeme.said) := by
  have hahead := h.ahead
  cases hs : s.ahead with
  | nil =>
    cases ht : t.ahead with
    | nil =>
      obtain ⟨e, f, he, hf, hef⟩ := h.ending
      exact .inl ⟨e, f, rfl, rfl, he, hf, hef⟩
    | cons v vs => simp [hs, ht] at hahead
  | cons u us =>
    cases ht : t.ahead with
    | nil => simp [hs, ht] at hahead
    | cons v vs =>
      simp only [hs, ht, List.map_cons, List.cons.injEq] at hahead
      exact .inr ⟨u, v, us, vs, rfl, rfl, hahead.1, hahead.2⟩

namespace Blind

variable {v : α → γ} {w : β → δ} {x y : Parser α} {f g : α → Parser β}

theorem pure {a b : α} (h : v a = v b) : Blind v (Pure.pure a) (Pure.pure b) :=
  fun _ _ hst => .ok h hst

theorem bind (hx : Blind v x y) (hf : ∀ a b, v a = v b → Blind w (f a) (g b)) :
    Blind w (x >>= f) (y >>= g) := by
  intro s t hst
  have hxy := hx s t hst
  rw [Step.bind_apply, Step.bind_apply]
  generalize x s = o, y t = o' at hxy
  cases hxy with
  | ok value state => exact hf _ _ value _ _ state
  | error fault => exact .error fault
  | exhausted => exact .exhausted

theorem map {h : α → β} (hx : Blind v x y)
    (hh : ∀ a b, v a = v b → w (h a) = w (h b)) : Blind w (h <$> x) (h <$> y) := by
  simp only [map_eq_pure_bind]
  exact hx.bind fun a b hab => .pure (hh a b hab)

/-- After steps that consume nothing, whatever they yield. -/
theorem quiet (hx : x.Quiet) (hy : y.Quiet) (hf : ∀ a b, Blind w (f a) (g b)) :
    Blind w (x >>= f) (y >>= g) := by
  intro s t hst
  obtain ⟨a, s', hxs, hs⟩ := hx.alike s
  obtain ⟨b, t', hyt, ht⟩ := hy.alike t
  rw [Step.bind_apply, Step.bind_apply, hxs, hyt]
  exact hf a b s' t' (hst.alike hs ht)

/-- After a step on the other side that consumes nothing. -/
theorem quiet_right {p : Parser β} (hy : y.Quiet) (h : ∀ b, Blind w p (g b)) :
    Blind w p (y >>= g) := by
  intro s t hst
  obtain ⟨b, t', hyt, ht⟩ := hy.alike t
  rw [Step.bind_apply, hyt]
  exact h b s t' (hst.alike (.refl s) ht)

theorem here {f g : Position → Parser β} (hf : ∀ p q, Blind w (f p) (g q)) :
    Blind w (Parser.here >>= f) (Parser.here >>= g) := quiet quiet_here quiet_here hf

theorem enter {production : String} {f g : Unit → Parser β} (hf : Blind w (f ()) (g ())) :
    Blind w (Parser.enter production >>= f) (Parser.enter production >>= g) :=
  quiet (quiet_enter _) (quiet_enter _) fun _ _ => hf

/-- The end of a production: a tree is made, which spans what was consumed. -/
theorem spanned {p q : Position} {h k : Span → β} (hh : ∀ a b, w (h a) = w (k b)) :
    Blind w (finish p >>= fun span => Pure.pure (h span))
      (finish q >>= fun span => Pure.pure (k span)) :=
  quiet (quiet_finish _) (quiet_finish _) fun a b => .pure (hh a b)

theorem unexpected (expected : List Bytes) :
    Blind v (Parser.unexpected expected) (Parser.unexpected expected) :=
  fun _ _ hst => .error (sameFault_unexpectedAt hst.current expected)

theorem exhausted : Blind v Step.exhausted Step.exhausted := fun _ _ _ => .exhausted

theorem advance : Blind (fun _ => ()) Parser.advance Parser.advance := by
  intro s t hst
  obtain ⟨e, f, hs, ht, he, hf, hef⟩ | ⟨u, v, us, vs, hs, ht, huv, hrest⟩ := hst.next
  · simp only [Parser.advance, hs, ht, he, hf]
    refine .ok rfl ⟨hef, ?_, e, f, ?_, ?_, hef⟩
    · rw [noteScan_ahead, noteScan_ahead, hs, ht]
    · rw [noteScan_ending, he]
    · rw [noteScan_ending, hf]
  · simp only [Parser.advance, hs, ht]
    refine .ok rfl ⟨huv, hrest, ?_⟩
    rw [noteScan_ending, noteScan_ending]
    exact hst.ending

theorem andAdvance {f g : Unit → Parser β} (hf : Blind w (f ()) (g ())) :
    Blind w (Parser.advance >>= f) (Parser.advance >>= g) :=
  advance.bind fun _ _ _ => hf

theorem current {f g : Token → Parser β}
    (hf : ∀ t u, t.lexeme.said = u.lexeme.said → Blind w (f t) (g u)) :
    Blind w (Parser.current >>= f) (Parser.current >>= g) :=
  fun s t hst => hf _ _ hst.current s t hst

theorem kind {f g : Kind → Parser β} (hf : ∀ k, Blind w (f k) (g k)) :
    Blind w (Parser.kind >>= f) (Parser.kind >>= g) := by
  intro s t hst
  have h := hf s.current.kind s t hst
  rw [hst.kind] at h
  rwa [← show (Parser.kind >>= f) s = f t.current.kind s from by rw [← hst.kind]; rfl] at h

/-- Productions chosen by whether the current token is of a kind. -/
theorem test {k : Kind} {p q p' q' : Parser β} (hp : Blind w p p') (hq : Blind w q q') :
    Blind w (Parser.at? k >>= fun b => if b then p else q)
      (Parser.at? k >>= fun b => if b then p' else q') := by
  refine kind (f := fun κ => if κ == k then p else q) (g := fun κ => if κ == k then p' else q')
    fun κ => ?_
  split
  · exact hp
  · exact hq

/-- Productions chosen by the kind of the token after the current one. -/
theorem peek {f g : Kind → Parser β} (hf : ∀ k, Blind w (f k) (g k)) :
    Blind w (Parser.peek >>= f) (Parser.peek >>= g) := by
  intro s t hst
  rw [Step.bind_apply, Step.bind_apply]
  obtain ⟨e, v, hs, ht, he, hv, hev⟩ | ⟨u, v, us, vs, hs, ht, huv, hrest⟩ := hst.next
  · simp only [Parser.peek, hs, ht, he, hv, show e.kind = v.kind from kind_of_said hev]
    exact hf _ _ _ (hst.alike (alike_noteScan _ _) (alike_noteScan _ _))
  · simp only [Parser.peek, hs, ht, show u.kind = v.kind from kind_of_said huv]
    exact hf _ _ _ (hst.alike (alike_noteScan _ _) (alike_noteScan _ _))

end Blind

section Steps

variable {look : β → δ}

theorem blind_expect (k : Kind) : Blind (fun _ => ()) (expect k) (expect k) :=
  .test .advance (.unexpected _)

/-- A production that begins with a token of a kind. -/
theorem Blind.mark {k : Kind} {f g : Unit → Parser β} (hf : Blind look (f ()) (g ())) :
    Blind look (expect k >>= f) (expect k >>= g) :=
  (blind_expect k).bind fun _ _ _ => hf

theorem blind_expectName : Blind Ident.bare expectName expectName := by
  refine .current fun t u htu => ?_
  obtain h | ⟨m, w, w', ht, hu⟩ := eq_or_mark_of_said htu
  · rw [h]
    split
    · exact .andAdvance (.pure rfl)
    · exact .unexpected _
  · simp only [ht, hu]
    exact .unexpected _

theorem blind_expectAll (marks : List Mark) :
    Blind (fun _ => ()) (expectAll marks) (expectAll marks) := by
  induction marks with
  | nil => exact .pure rfl
  | cons m marks ih => exact .mark ih

theorem blind_skipSemicolon : Blind (fun _ => ()) skipSemicolon skipSemicolon :=
  .test .advance (.pure rfl)

theorem blind_commaList {view : α → γ} {x : Parser α} (hx : Blind view x x) (fuel : Nat) :
    Blind (List.map view) (commaList x fuel) (commaList x fuel) := by
  induction fuel with
  | zero => exact .exhausted
  | succ fuel ih =>
    refine hx.bind fun a b hab => .test (.andAdvance (ih.bind fun as bs hrest => ?_)) ?_
    · exact .pure (by simp [hab, hrest])
    · exact .pure (by simp [hab])

theorem blind_parenthesized {view : α → γ} {x : Parser α} (hx : Blind view x x) :
    Blind view (parenthesized x) (parenthesized x) :=
  .mark (hx.bind fun _ _ h => .mark (.pure h))

end Steps

theorem bareAll_eq_map : Expr.bareAll = List.map Expr.bare := by
  funext es
  induction es with
  | nil => rfl
  | cons e es ih => rw [Expr.bareAll, ih, List.map_cons]

section Expressions

theorem blind_operator (op : Op) : Blind Operator.bare (operator op) (operator op) :=
  .current fun _ _ _ => .andAdvance (.pure rfl)

variable {x : Parser Expr} (hx : Blind Expr.bare x x) (fuel : Nat)

theorem blind_leaf {build build' : Span → Expr} (h : ∀ u v, (build u).bare = (build' v).bare) :
    Blind Expr.bare (leaf build) (leaf build') :=
  .here fun _ _ => .andAdvance (.spanned h)

include hx

theorem blind_chain (layer : Layer) (op? : Kind → Option Op) (p q : Position) {l l' : Expr}
    (hl : l.bare = l'.bare) :
    Blind Expr.bare (chain layer op? x p fuel l) (chain layer op? x q fuel l') := by
  induction fuel generalizing l l' with
  | zero => exact .exhausted
  | succ fuel ih =>
    refine .kind fun k => ?_
    split
    · exact .pure hl
    · refine (blind_operator _).bind fun o o' ho => hx.bind fun r r' hr => ?_
      exact .quiet (quiet_finish _) (quiet_finish _) fun u v => ih (by simp [Expr.bare, hl, ho, hr])

theorem blind_product : Blind Expr.bare (product x fuel) (product x fuel) :=
  .here fun _ _ => hx.bind fun _ _ h => blind_chain hx fuel _ _ _ _ h

theorem blind_sum : Blind Expr.bare (sum x fuel) (sum x fuel) :=
  .here fun _ _ => (blind_product hx fuel).bind fun _ _ h =>
    blind_chain (blind_product hx fuel) fuel _ _ _ _ h

theorem blind_comparisonFrom (p q : Position) {l l' : Expr} (hl : l.bare = l'.bare) :
    Blind Expr.bare (comparisonFrom x fuel l p) (comparisonFrom x fuel l' q) := by
  refine .kind fun k => ?_
  split
  · exact .pure hl
  · refine (blind_operator _).bind fun o o' ho => (blind_sum hx fuel).bind fun r r' hr => ?_
    exact .spanned fun _ _ => by simp [Expr.bare, hl, ho, hr]

theorem blind_comparison : Blind Expr.bare (comparison x fuel) (comparison x fuel) :=
  .here fun p q => (blind_sum hx fuel).bind fun _ _ h => blind_comparisonFrom hx fuel p q h

theorem blind_comparisonAfter (p q : Position) {l l' : Expr} (hl : l.bare = l'.bare) :
    Blind Expr.bare (comparisonAfter x fuel l p) (comparisonAfter x fuel l' q) := by
  refine (blind_chain hx fuel _ _ p q hl).bind fun _ _ h => ?_
  refine (blind_chain (blind_product hx fuel) fuel _ _ p q h).bind fun _ _ h => ?_
  exact blind_comparisonFrom hx fuel p q h

theorem blind_arguments : Blind Expr.bareAll (arguments x fuel) (arguments x fuel) := by
  rw [arguments_eq]
  refine .mark (.bind (v := Expr.bareAll) (.kind fun k => ?_) fun as bs h => .mark (.pure h))
  split
  · rw [bareAll_eq_map]
    exact blind_commaList hx fuel
  · exact .pure rfl

theorem blind_call : Blind Expr.bare (call x fuel) (call x fuel) := by
  refine .here fun p q => blind_expectName.bind fun f g hf => ?_
  refine (blind_arguments hx fuel).bind fun as bs h => .spanned fun _ _ => ?_
  simp [Expr.bare, hf, h]

/-- An array and an index without their spans. -/
def slotBare (slot : Ident × Expr × Span) : Ident × Expr := (slot.1.bare, slot.2.1.bare)

theorem blind_slot : Blind slotBare (slot x) (slot x) := by
  refine .here fun p q => blind_expectName.bind fun f g hf => .mark (hx.bind fun i j hi => ?_)
  exact .mark (.spanned fun _ _ => by simp [slotBare, hf, hi])

omit hx in
theorem blind_inputLine : Blind Expr.bare inputLine inputLine := by
  rw [inputLine_eq]
  refine .here fun p q => .mark (.mark (.bind (v := Option.map Prompt.bare) ?_ fun a b h => ?_))
  · refine .current fun t u htu => ?_
    rw [show t.kind = u.kind from kind_of_said htu]
    split
    · next hk =>
      obtain h | ⟨m, w, w', -, hu⟩ := eq_or_mark_of_said htu
      · exact .andAdvance (.pure (by simp [Prompt.bare, h]))
      · simp [Token.kind, hu, Lexeme.kind] at hk
    · exact .pure rfl
  · exact .mark (.spanned fun _ _ => by simp [Expr.bare, h])

theorem blind_readFile : Blind Expr.bare (readFile x) (readFile x) := by
  refine .here fun p q => .andAdvance (.mark (blind_expectName.bind fun f g hf => ?_))
  refine .bind (v := Option.map Expr.bare) (.test (.andAdvance (.kind fun k => ?_)) (.pure rfl))
    fun a b h => .mark (.spanned fun _ _ => by simp [Expr.bare_read, hf, h])
  split
  · exact hx.bind fun a b h => .pure (by simp [h])
  · exact .pure rfl

omit hx in
theorem blind_fileVerb {view : α → γ} {build : Ident → Span → α}
    (h : ∀ f g u v, f.bare = g.bare → view (build f u) = view (build g v)) :
    Blind view (fileVerb build) (fileVerb build) :=
  .here fun _ _ => .andAdvance ((blind_parenthesized blind_expectName).bind fun f g hf =>
    .spanned fun u v => h f g u v hf)

theorem blind_conversion {build : Expr → Span → Expr}
    (h : ∀ a b u v, a.bare = b.bare → (build a u).bare = (build b v).bare) :
    Blind Expr.bare (conversion x build) (conversion x build) :=
  .here fun _ _ => .andAdvance ((blind_parenthesized hx).bind fun a b hab =>
    .spanned fun u v => h a b u v hab)

theorem blind_negation (op : Op) : Blind Expr.bare (negation op x) (negation op x) :=
  .here fun _ _ => (blind_operator op).bind fun o o' ho => hx.bind fun a b h =>
    .spanned fun _ _ => by simp [Expr.bare, ho, h]

theorem blind_group : Blind Expr.bare (group x) (group x) :=
  .here fun _ _ => (blind_parenthesized hx).bind fun _ _ h => .spanned fun _ _ => by
    simp [Expr.bare, h]

theorem blind_reference {y : Parser Expr} (hy : Blind Expr.bare y y) (name : String) :
    Blind Expr.bare (reference x y fuel name) (reference x y fuel name) := by
  refine .peek fun k => ?_
  split
  · exact blind_call hx fuel
  · refine (blind_slot hy).bind fun a b h => .pure ?_
    simp only [slotBare, Prod.mk.injEq] at h
    simp [Expr.bare, h]
  · exact blind_leaf fun _ _ => rfl

theorem blind_factorAt {y z : Parser Expr} (hy : Blind Expr.bare y y) (hz : Blind Expr.bare z z)
    (l : Lexeme) (k : Kind) :
    Blind Expr.bare (factorAt x y z fuel l k) (factorAt x y z fuel l k) := by
  unfold factorAt
  split
  case h_1 | h_2 | h_3 =>
    refine blind_leaf fun _ _ => ?_
    unfold literalOf
    split <;> rfl
  case h_4 => exact blind_reference hx fuel hy _
  case h_5 | h_6 => exact blind_leaf fun _ _ => rfl
  case h_7 => exact blind_group hx
  case h_8 | h_9 => exact blind_negation hz _
  case h_10 => exact blind_inputLine
  case h_11 | h_12 | h_13 => exact blind_conversion hx fun a b _ _ h => by simp [Expr.bare, h]
  case h_14 => exact blind_readFile hx
  case h_15 | h_16 => exact blind_fileVerb fun f g _ _ h => by simp [Expr.bare, h]
  case h_17 => exact .unexpected _

theorem blind_factorWith {y z : Parser Expr} (hy : Blind Expr.bare y y)
    (hz : Blind Expr.bare z z) :
    Blind Expr.bare (factorWith x y z fuel) (factorWith x y z fuel) := by
  rw [factorWith_eq]
  refine .current fun t u htu => ?_
  have hk : t.kind = u.kind := kind_of_said htu
  have hsame : factorAt x y z fuel t.lexeme u.kind = factorAt x y z fuel u.lexeme u.kind := by
    obtain h | ⟨m, w, w', -, hu⟩ := eq_or_mark_of_said htu
    · rw [h]
    · rw [Token.kind, hu, Lexeme.kind]
      cases m <;> rfl
  rw [hk, hsame]
  exact blind_factorAt hx fuel hy hz _ _

end Expressions

theorem blind_factor (fuel : Nat) : Blind Expr.bare (factor fuel) (factor fuel) := by
  induction fuel with
  | zero => exact .exhausted
  | succ fuel ih =>
    exact blind_factorWith (blind_comparison ih fuel) fuel (blind_sum ih fuel) ih

theorem blind_sumExpr (fuel : Nat) : Blind Expr.bare (sumExpr fuel) (sumExpr fuel) :=
  blind_sum (blind_factor fuel) fuel

theorem blind_expression (fuel : Nat) : Blind Expr.bare (expression fuel) (expression fuel) :=
  blind_comparison (blind_factor fuel) fuel

section Blocks

variable {x : Parser Stmt} (hx : Blind Stmt.bare x x) (fuel : Nat)

theorem blind_jump {build : Span → Stmt} (h : ∀ u v, (build u).bare = (build v).bare) :
    Blind Stmt.bareAll (jump build) (jump build) :=
  .here fun _ _ => .andAdvance (.quiet (quiet_finish _) (quiet_finish _) fun u v =>
    blind_skipSemicolon.bind fun _ _ _ => .pure (by simp [Stmt.bareAll, h u v]))

theorem blind_finalJump : Blind Stmt.bareAll finalJump finalJump := by
  refine .kind fun k => ?_
  split
  · exact blind_jump fun _ _ => rfl
  · exact blind_jump fun _ _ => rfl
  · exact .pure rfl

include hx

theorem blind_statements : Blind Stmt.bareAll (statements x fuel) (statements x fuel) := by
  induction fuel with
  | zero => exact .exhausted
  | succ fuel ih =>
    refine .kind fun k => ?_
    split
    · refine hx.bind fun s t hst => blind_skipSemicolon.bind fun _ _ _ => ih.bind fun ss ts h => ?_
      exact .pure (by simp [Stmt.bareAll, hst, h])
    · exact .pure rfl

theorem blind_body (conditional : Bool) :
    Blind Body.bare (body x fuel conditional) (body x fuel conditional) := by
  refine .enter (.here fun _ _ => (blind_statements hx fuel).bind fun ss ts h => ?_)
  cases conditional with
  | false => exact .spanned fun _ _ => by simp [Body.bare, h]
  | true =>
    refine blind_finalJump.bind fun js ks hj => .spanned fun _ _ => ?_
    simp [Body.bare, Stmt.bareAll_append, h, hj]

theorem blind_braced (conditional : Bool) :
    Blind Body.bare (braced x fuel conditional) (braced x fuel conditional) :=
  .mark ((blind_body hx fuel conditional).bind fun _ _ h => .mark (.pure h))

theorem blind_bracedOrSingle : Blind Body.bare (bracedOrSingle x fuel) (bracedOrSingle x fuel) := by
  refine .test (blind_braced hx fuel false) (.here fun _ _ => .kind fun k => ?_)
  split
  · refine hx.bind fun s t hst => .mark (.spanned fun _ _ => ?_)
    simp [Body.bare, Stmt.bareAll, hst]
  · exact .unexpected _

end Blocks

section Statements

variable {x y : Parser Expr} (hx : Blind Expr.bare x x) (hy : Blind Expr.bare y y) (fuel : Nat)
include hx

/-- Two expressions without their spans. -/
def pairBare (pair : Expr × Expr) : Expr × Expr := (pair.1.bare, pair.2.bare)

theorem blind_pair : Blind pairBare (pair x) (pair x) :=
  .mark (hx.bind fun _ _ h => .mark (hx.bind fun _ _ h' => .mark (.pure (by
    simp [pairBare, h, h']))))

theorem blind_giveBack : Blind Stmt.bare (giveBack x) (giveBack x) := by
  have hvalue : Blind (Option.map Expr.bare) (some <$> x) (some <$> x) :=
    hx.map fun a b h => by simp [h]
  rw [giveBack_eq]
  refine .here fun _ _ => .andAdvance (.bind (v := Option.map Expr.bare) (.kind fun k => ?_)
    fun a b h => .spanned fun _ _ => by simp [Stmt.bare, h])
  split
  · refine .test (.peek fun k => ?_) hvalue
    split
    · exact .pure rfl
    · exact hvalue
  · exact .pure rfl

theorem blind_assignment : Blind Stmt.bare (assignment x) (assignment x) :=
  .here fun _ _ => blind_expectName.bind fun f g hf => .mark (hx.bind fun a b h =>
    .spanned fun _ _ => by simp [Stmt.bare, hf, h])

omit hx in
theorem blind_advancement (op : Op) : Blind Stmt.bare (advancement op) (advancement op) :=
  .here fun _ _ => blind_expectName.bind fun f g hf => (blind_operator op).bind fun o o' ho =>
    .spanned fun _ _ => by simp [Stmt.bare, hf, ho]

theorem blind_elements : Blind Expr.bareAll (elements x fuel) (elements x fuel) := by
  induction fuel with
  | zero => exact .exhausted
  | succ fuel ih =>
    refine .test (.pure rfl) (hx.bind fun a b h => .test (.andAdvance ?_) (.pure ?_))
    · exact ih.bind fun as bs hrest => .pure (by simp [Expr.bareAll, h, hrest])
    · simp [Expr.bareAll, h]

include hy in
theorem blind_declaration : Blind Stmt.bare (declaration x y fuel) (declaration x y fuel) := by
  refine .here fun _ _ => blind_expectName.bind fun f g hf => .mark (.kind fun k => ?_)
  split
  · exact .andAdvance (hy.bind fun a b h => .mark (.spanned fun _ _ => by simp [Stmt.bare, hf, h]))
  · exact .andAdvance ((blind_elements hx fuel).bind fun a b h => .mark (.spanned fun _ _ => by
      simp [Stmt.bare, hf, h]))
  · refine .andAdvance ((blind_pair hx).bind fun a b h => .spanned fun _ _ => ?_)
    simp only [pairBare, Prod.mk.injEq] at h
    simp [Stmt.bare, hf, h]
  · refine .andAdvance ((blind_pair hx).bind fun a b h => .spanned fun _ _ => ?_)
    simp only [pairBare, Prod.mk.injEq] at h
    simp [Stmt.bare, hf, h]
  · exact .unexpected _

theorem blind_updateOf {a b : Ident × Expr × Span} (hab : slotBare a = slotBare b)
    (p q : Position) : Blind Stmt.bare (updateOf x a p) (updateOf x b q) := by
  refine .mark (hx.bind fun v w h => .spanned fun _ _ => ?_)
  simp only [slotBare, Prod.mk.injEq] at hab
  simp [Stmt.bare, hab, h]

include hy in
theorem blind_nameStatement :
    Blind Stmt.bare (nameStatement x y fuel) (nameStatement x y fuel) := by
  refine .peek fun k => ?_
  split
  · exact blind_assignment hx
  · exact blind_advancement _
  · exact blind_advancement _
  · exact (blind_call hx fuel).map fun a b h => by simp [Stmt.bare, h]
  · exact blind_declaration hx hy fuel
  · exact .here fun p q => (blind_slot hy).bind fun a b h => blind_updateOf hx h p q
  · exact .andAdvance (.unexpected _)

theorem blind_print (newline : Bool) :
    Blind Stmt.bare (print x fuel newline) (print x fuel newline) :=
  .here fun _ _ => .andAdvance ((blind_arguments hx fuel).bind fun a b h => .spanned fun _ _ => by
    simp [Stmt.bare, h])

theorem blind_writeFile (newline : Bool) :
    Blind Stmt.bare (writeFile x newline) (writeFile x newline) :=
  .here fun _ _ => .andAdvance (.mark (blind_expectName.bind fun f g hf => .mark
    (hx.bind fun a b h => .mark (.spanned fun _ _ => by simp [Stmt.bare, hf, h]))))

variable {b : Parser Body} (hb : Blind Body.bare b b)
include hb

theorem blind_loop : Blind Stmt.bare (loop x b) (loop x b) :=
  .enter (.here fun _ _ => .andAdvance ((blind_parenthesized hx).bind fun c d hc =>
    hb.bind fun u v h => .spanned fun _ _ => by simp [Stmt.bare, Body.bare?, hc, h]))

theorem blind_range : Blind Stmt.bare (range x b) (range x b) := by
  refine .enter (.here fun _ _ => .andAdvance (blind_expectName.bind fun f g hf => .mark ?_))
  refine (blind_pair hx).bind fun c d hc => hb.bind fun u v h => .spanned fun _ _ => ?_
  simp only [pairBare, Prod.mk.injEq] at hc
  simp [Stmt.bare, Body.bare?, hf, hc, h]

theorem blind_orWhens : Blind OrWhen.bareAll (orWhens x b fuel) (orWhens x b fuel) := by
  induction fuel with
  | zero => exact .exhausted
  | succ fuel ih =>
    refine .test (.here fun _ _ => .andAdvance ?_) (.pure rfl)
    refine (blind_parenthesized hx).bind fun c d hc => hb.bind fun u v h => ?_
    refine .quiet (quiet_finish _) (quiet_finish _) fun _ _ => ih.bind fun as bs hrest => .pure ?_
    simp [OrWhen.bareAll, Body.bare?, hc, h, hrest]

omit hx in
theorem blind_otherwise : Blind Otherwise.bare? (otherwise b) (otherwise b) :=
  .test (.here fun _ _ => .andAdvance (hb.bind fun u v h => .spanned fun _ _ => by
    simp [Otherwise.bare?, Body.bare?, h])) (.pure rfl)

theorem blind_conditional : Blind Stmt.bare (conditional x b fuel) (conditional x b fuel) := by
  refine .enter (.here fun _ _ => .andAdvance ((blind_parenthesized hx).bind fun c d hc => ?_))
  refine hb.bind fun u v h => (blind_orWhens hx fuel hb).bind fun as bs hor => ?_
  refine (blind_otherwise hb).bind fun o p hother => .spanned fun _ _ => ?_
  simp [Stmt.bare, Body.bare?, hc, h, hor, hother]

include hy

theorem blind_statementWith :
    Blind Stmt.bare (statementWith x y b fuel) (statementWith x y b fuel) := by
  refine .enter (.kind fun k => ?_)
  split
  case h_1 => exact blind_nameStatement hx hy fuel
  case h_2 => exact blind_giveBack hx
  case h_3 => exact blind_loop hx hb
  case h_4 => exact blind_range hx hb
  case h_5 => exact blind_conditional hx fuel hb
  case h_6 | h_7 => exact blind_print hx fuel _
  case h_8 => exact blind_inputLine.map fun a b h => by simp [Stmt.bare, h]
  case h_9 => exact blind_fileVerb fun f g _ _ h => by simp [Stmt.bare, h]
  case h_10 => exact (blind_readFile hx).map fun a b h => by simp [Stmt.bare, h]
  case h_11 =>
    refine Blind.map (v := Expr.bare) ?_ fun a b h => by simp [Stmt.bare, h]
    exact blind_fileVerb fun f g _ _ h => by simp [Expr.bare, h]
  case h_12 | h_13 => exact blind_writeFile hx _
  case h_14 => exact .unexpected _

end Statements

theorem blind_statement (fuel : Nat) : Blind Stmt.bare (statement fuel) (statement fuel) := by
  induction fuel with
  | zero => exact .exhausted
  | succ fuel ih =>
    exact blind_statementWith (blind_expression fuel) (blind_sumExpr fuel) fuel
      (blind_braced ih fuel true)

theorem blind_definition (fuel : Nat) :
    Blind FuncDef.bare (definition fuel) (definition fuel) := by
  rw [definition_eq]
  refine .enter (.here fun _ _ => .mark (blind_expectName.bind fun f g hf => ?_))
  refine .bind (v := List.map Ident.bare) (.test ?_ (.pure rfl)) fun as bs hparams => .mark ?_
  · rw [parameters_eq]
    refine .mark (.bind (v := List.map Ident.bare) (.test ?_ (.pure rfl)) fun as bs h => ?_)
    · exact blind_commaList blind_expectName fuel
    · exact .mark (.pure h)
  · refine (blind_bracedOrSingle (blind_statement fuel) fuel).bind fun u v h => ?_
    exact .spanned fun _ _ => by simp [FuncDef.bare, Body.bare?, hf, hparams, h]

theorem blind_definitions (n fuel : Nat) :
    Blind (List.map FuncDef.bare) (definitions (definition n) fuel)
      (definitions (definition n) fuel) := by
  induction fuel with
  | zero => exact .exhausted
  | succ fuel ih =>
    refine .test ((blind_definition n).bind fun f g hf => ih.bind fun fs gs h => ?_) (.pure rfl)
    exact .pure (by simp [hf, h])

theorem blind_program (fuel : Nat) : Blind Program.bare (program fuel) (program fuel) := by
  refine .andAdvance (.here fun _ _ => .test (.pure rfl) (.enter ?_))
  refine (blind_definitions fuel fuel).bind fun fs gs hfs => ?_
  refine (blind_expectAll _).bind fun _ _ _ => ?_
  refine (blind_bracedOrSingle (blind_statement fuel) fuel).bind fun u v h => .mark ?_
  exact .spanned fun _ _ => by simp [Program.bare, Body.bare?, hfs, h]

theorem blind_slotEntry (fuel : Nat) : Blind Node.bare (slotEntry fuel) (slotEntry fuel) := by
  refine .here fun p q => (blind_slot (blind_sumExpr fuel)).bind fun a b hab => .test ?_ ?_
  · refine (blind_updateOf (blind_expression fuel) hab p q).bind fun s t hst => ?_
    refine blind_skipSemicolon.bind fun _ _ _ => ?_
    refine (blind_body (blind_statement fuel) fuel false).bind fun u v h => .spanned fun _ _ => ?_
    obtain ⟨us, _⟩ := u
    obtain ⟨vs, _⟩ := v
    simp only [Body.bare, Body.mk.injEq, and_true] at h
    simp [Node.bare, Body.bare, Stmt.bareAll, hst, h]
  · simp only [slotBare, Prod.mk.injEq] at hab
    refine (blind_comparisonAfter (blind_factor fuel) fuel p q ?_).map fun c d h => by
      simp [Node.bare, h]
    simp [Expr.bare, hab]

theorem blind_bodyNode (fuel : Nat) :
    Blind Node.bare (.body <$> plainBody fuel) (.body <$> plainBody fuel) :=
  (blind_body (blind_statement fuel) fuel false).map fun a b h => by simp [Node.bare, h]

theorem blind_exprNode (fuel : Nat) :
    Blind Node.bare (.expr <$> expression fuel) (.expr <$> expression fuel) :=
  (blind_expression fuel).map fun a b h => by simp [Node.bare, h]

theorem blind_entryNode (fuel : Nat) : Blind Node.bare (entryNode fuel) (entryNode fuel) := by
  refine .kind fun k => ?_
  split
  · exact (blind_definition fuel).map fun a b h => by simp [Node.bare, h]
  · refine .peek fun k => ?_
    split
    case h_5 => exact blind_slotEntry fuel
    case h_6 => exact blind_exprNode fuel
    all_goals exact blind_bodyNode fuel
  · split
    · exact blind_bodyNode fuel
    · exact blind_exprNode fuel

theorem blind_conclude {a b : Node} (h : a.bare = b.bare) :
    Blind (Option.map Node.bare) (conclude a) (conclude b) := by
  have hend : Blind (Option.map Node.bare)
      (at? .endOfInput >>= fun e => if e then pure (some a) else unexpected ["end of input"])
      (at? .endOfInput >>= fun e => if e then pure (some b) else unexpected ["end of input"]) :=
    .test (.pure (by simp [h])) (.unexpected _)
  cases a <;> cases b <;> first | exact hend | cases h | skip
  exact blind_skipSemicolon.bind fun _ _ _ => hend

theorem blind_entry (fuel : Nat) : Blind (Option.map Node.bare) (entry fuel) (entry fuel) := by
  rw [entry_eq]
  refine .andAdvance (.test (.pure rfl) (.enter ?_))
  exact (blind_entryNode fuel).bind fun a b h => blind_conclude h

/-- Two parses that succeed with trees that look the same to `view`, or fail for the same reason,
given in the same words. -/
inductive SameParse (view : α → γ) :
    Outcome State Diagnostic α → Outcome State Diagnostic α → Prop
  | ok {a b : α} {s t : State} (tree : view a = view b) : SameParse view (.ok a s) (.ok b t)
  | error {d e : Diagnostic} {s t : State} (fault : SameFault d e) :
    SameParse view (.error d s) (.error e t)

theorem Agrees.sameParse {view : α → γ} {o o' : Outcome State Diagnostic α} (h : Agrees view o o')
    (ho : o ≠ .exhausted) : SameParse view o o' := by
  cases h with
  | ok value _ => exact .ok value
  | error fault => exact .error fault
  | exhausted => exact absurd rfl ho

section Texts

variable {limits : Token.Limits} {text text' : Bytes}

theorem properScan_tokenize (limits : Token.Limits) (text : Bytes) :
    ProperScan (Token.tokenize limits text) :=
  properScan_scanAll _ _ _

theorem same_ofScan (h : scans limits text) (h' : scans limits text')
    (hsaid : lexemesOf limits text = lexemesOf limits text') :
    Same (.ofScan (Token.tokenize limits text)) (.ofScan (Token.tokenize limits text')) := by
  obtain ⟨e, he⟩ := scans_iff.mp h
  obtain ⟨f, hf⟩ := scans_iff.mp h'
  have hek := (properScan_tokenize limits text).ending e he
  have hfk := (properScan_tokenize limits text').ending f hf
  refine ⟨rfl, hsaid, e, f, he, hf, ?_⟩
  rw [said_of_kind_endOfInput hek, said_of_kind_endOfInput hfk]

theorem length_of_lexemesOf (hsaid : lexemesOf limits text = lexemesOf limits text') :
    (Token.tokenize limits text).tokens.length = (Token.tokenize limits text').tokens.length := by
  simpa [lexemesOf] using congrArg List.length hsaid

end Texts

/-- What is parsed depends on what the tokens say. Two texts that are scanned to the end, and whose
tokens say the same, are parsed as trees that are equal up to spans, or fail for the same reason,
given in the same words; this holds of programs and of entries. -/
theorem sameParse_of_lexemesOf (limits : Token.Limits) (text text' : Bytes) (h : scans limits text)
    (h' : scans limits text') (hsaid : lexemesOf limits text = lexemesOf limits text') :
    SameParse Program.bare (parseProgram limits text) (parseProgram limits text') ∧
      SameParse (Option.map Node.bare) (parseEntry limits text) (parseEntry limits text') := by
  have hsame := same_ofScan h h' hsaid
  have hlen := length_of_lexemesOf hsaid
  have hproper := properScan_tokenize limits text
  constructor
  · have hprogram := blind_program ((Token.tokenize limits text).tokens.length + 2) _ _ hsame
    rw [parseProgram, parseProgram, run, run, ← hlen]
    exact hprogram.sameParse (program_ne_exhausted hproper)
  · have hentry := blind_entry ((Token.tokenize limits text).tokens.length + 2) _ _ hsame
    rw [parseEntry, parseEntry, run, run, ← hlen]
    exact hentry.sameParse (entry_ne_exhausted hproper)

deriving instance DecidableEq for Token.Lexeme

/-- A sum written with a sign and with a word, with blanks, lines and comments in between; as a
program it is parsed, as an entry it fails. -/
theorem sameParse_of_lexemesOf_sum :
    let text : Bytes := "uWu_nyaa() => yomu(1 + x, nai y);"
    let text' : Bytes := "uWu_nyaa ( ) => ## a sum ##\n  yomu ( 1 purasu x , ! y ) # printed\n ;"
    scans {} text ∧ scans {} text' ∧ lexemesOf {} text = lexemesOf {} text' ∧ parses {} text ∧
      SameParse Program.bare (parseProgram {} text) (parseProgram {} text') ∧
      SameParse (Option.map Node.bare) (parseEntry {} text) (parseEntry {} text') := by
  intro text text'
  have hscans : scans {} text := by decide +kernel
  have hscans' : scans {} text' := by decide +kernel
  have hsaid : lexemesOf {} text = lexemesOf {} text' := by decide +kernel
  exact ⟨hscans, hscans', hsaid, by decide +kernel,
    sameParse_of_lexemesOf {} text text' hscans hscans' hsaid⟩

end Kotoba.Syntax
