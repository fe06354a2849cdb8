import Kotoba.Proofs.Syntax.Parsed

/-! Fuel. Every production takes a token before it is entered again, so that with more fuel than
tokens it comes to an end; and what it comes to does not depend on how much fuel there is. -/
namespace Kotoba.Syntax

open Token (Kind)
open Kotoba.Syntax.Parser

variable {α β : Type}

/-- A production that does not run out of fuel if fewer than `n` tokens are to come. -/
def Halts (n : Nat) (x : Parser α) : Prop :=
  ∀ s, s.Proper → s.kinds.length < n → x s ≠ .exhausted

/-- A production that does not run out of fuel, and after which another one can go on. If it
`eats`, it takes at least one token. -/
structure Ends (n : Nat) (eats : Bool) (x : Parser α) : Prop where
  halts : Halts n x
  leaves : ∀ s a s', s.Proper → s.kinds.length < n → x s = .ok a s' →
    s'.Proper ∧ s'.kinds.length + eats.toNat ≤ s.kinds.length

namespace Ends

variable {n m : Nat} {eats : Bool} {x : Parser α} {f : α → Parser β}

theorem of_reads {ι : Type} {n' : ι → Nat} {follow : Follow} {y : ι → Parser α}
    (h : Reads n n' (fun _ => True) follow eats x y) : Ends n eats x where
  halts s hs hlen hx := by
    have hxs := h s hs trivial hlen
    rw [hx] at hxs
    exact hxs
  leaves s a s' hs hlen hx := by
    have hxs := h s hs trivial hlen
    rw [hx] at hxs
    exact ⟨hxs.proper, hxs.length_le⟩

/-- A production after one that ends; there are fewer tokens to come for it. -/
theorem then_halts (hx : Ends n eats x) (hf : ∀ a, Halts m (f a)) (hn : n ≤ m + eats.toNat) :
    Halts n (x >>= f) := by
  intro s hs hlen
  rw [Step.bind_apply]
  cases hxs : x s with
  | ok a s₁ =>
    obtain ⟨hs₁, hlen₁⟩ := hx.leaves s a s₁ hs hlen hxs
    exact hf a s₁ hs₁ (by omega)
  | error d s₁ => rintro ⟨⟩
  | exhausted => exact absurd hxs (hx.halts s hs hlen)

theorem bind (hx : Ends n eats x) (hf : ∀ a, Ends m false (f a)) (hn : n ≤ m + eats.toNat) :
    Ends n false (x >>= f) where
  halts := hx.then_halts (fun a => (hf a).halts) hn
  leaves s b s' hs hlen h := by
    obtain ⟨a, s₁, hxs, hfs⟩ := Step.bind_eq_ok h
    obtain ⟨hs₁, hlen₁⟩ := hx.leaves s a s₁ hs hlen hxs
    obtain ⟨hs', hlen'⟩ := (hf a).leaves s₁ b s' hs₁ (by omega) hfs
    exact ⟨hs', by simp only [Bool.toNat_false] at *; omega⟩

theorem pure (a : α) : Ends n false (Pure.pure a) where
  halts _ _ _ h := by cases h
  leaves s b s' hs _ h := by
    cases h
    exact ⟨hs, Nat.le_refl _⟩

theorem test {k : Kind} {p q : Parser α} (hp : Ends n false p) (hq : Ends n false q) :
    Ends n false (at? k >>= fun b => if b then p else q) := by
  refine ⟨fun s hs hlen => ?_, fun s a s' hs hlen h => ?_⟩
  · rw [Step.bind_apply, at?, Step.gets]
    dsimp only
    split
    · exact hp.halts s hs hlen
    · exact hq.halts s hs hlen
  · rw [Step.bind_apply, at?, Step.gets] at h
    dsimp only at h
    split at h
    · exact hp.leaves s a s' hs hlen h
    · exact hq.leaves s a s' hs hlen h

/-- Definitions come to an end, since each of them takes a token. -/
theorem definitions (n fuel : Nat) (hn : fuel ≤ n) :
    Ends fuel false (Syntax.definitions (definition n) fuel) := by
  induction fuel with
  | zero =>
    exact ⟨fun _ _ h => absurd h (Nat.not_lt_zero _),
      fun _ _ _ _ h => absurd h (Nat.not_lt_zero _)⟩
  | succ fuel ih =>
    have hreads : Reads n (fun _ : Unit => n) (fun _ => True) none true (definition n)
        fun _ => definition n := reads_definition fun _ => Nat.le_refl n
    have hfirst : Ends (fuel + 1) true (definition n) := of_reads (hreads.within hn fun _ => hn)
    refine test (hfirst.bind (m := fuel) (fun f => ?_) (Nat.le_refl _)) (pure [])
    exact (ih (by omega)).bind (fun fs => pure (f :: fs)) (Nat.le_refl _)

theorem expectAll (marks : List Mark) : Ends n false (Parser.expectAll marks) := by
  induction marks with
  | nil => exact pure ()
  | cons m marks ih =>
    have hreads : Reads n (fun _ : Unit => n) (fun _ => True) none true (expect (.mark m))
        fun _ => expect (.mark m) := reads_expect (by rintro ⟨⟩)
    exact (of_reads hreads).bind (fun _ => ih) (Nat.le_add_right _ _)

end Ends

theorem expect_ne_exhausted (k : Kind) (s : State) : expect k s ≠ .exhausted := by
  rw [expect, Step.bind_apply, at?, Step.gets]
  dsimp only
  split
  · unfold advance
    split <;> rintro ⟨⟩
  · rintro ⟨⟩

theorem halts_fetchedProgram (n : Nat) : Halts n (fetchedProgram n) := by
  have hle : ∀ _ : Unit, n ≤ n := fun _ => Nat.le_refl n
  have hblock := Ends.of_reads (takes_bracedOrSingle (takes_statement hle) hle).reads
  have htree : ∀ start, Halts n (definitions (definition n) n >>= fun functions =>
      expectAll [.main, .openParen, .closeParen, .arrow] >>= fun _ =>
        bracedOrSingle (statement n) n >>= fun b => expect .endOfInput >>= fun _ =>
          finish start >>= fun span => pure (⟨functions, b, span⟩ : Program)) := by
    intro start
    refine (Ends.definitions n n (Nat.le_refl n)).then_halts (fun fs => ?_) (Nat.le_refl _)
    refine (Ends.expectAll _).then_halts (fun _ => ?_) (Nat.le_refl _)
    refine hblock.then_halts (m := n) (fun b => ?_) (Nat.le_add_right _ _)
    intro s _ _
    rw [Step.bind_apply]
    cases hend : expect .endOfInput s with
    | exhausted => exact absurd hend (expect_ne_exhausted _ s)
    | _ => rintro ⟨⟩
  intro s hs hlen
  rw [fetchedProgram, Step.bind_apply, here, Step.gets]
  dsimp only
  rw [Step.bind_apply, at?, Step.gets]
  dsimp only
  split
  · rintro ⟨⟩
  · obtain ⟨_, s₁, hs₁, halike⟩ := (quiet_enter "<Program>").alike s
    rw [Step.bind_apply, hs₁]
    exact htree _ s₁ (halike.proper hs) (by rwa [halike.kinds])

theorem program_ne_exhausted {a : Token.Scan} (ha : ProperScan a) :
    program (a.tokens.length + 2) (.ofScan a) ≠ .exhausted := by
  change (advance >>= fun _ => fetchedProgram (a.tokens.length + 2)) (.ofScan a) ≠ .exhausted
  rw [Step.bind_apply]
  obtain ⟨s, hs, hproper, hleft, -⟩ | ⟨-, f, -, hs⟩ := fetch ha
  · rw [hs]
    exact halts_fetchedProgram _ s hproper (by simp [State.kinds, hleft])
  · rw [hs]
    rintro ⟨⟩

theorem entry_ne_exhausted {a : Token.Scan} (ha : ProperScan a) :
    entry (a.tokens.length + 2) (.ofScan a) ≠ .exhausted := by
  obtain ⟨s, hs, hleft, -, ⟨-, s', hnone⟩ | ⟨hne, hsome⟩⟩ | ⟨-, f, -, hfault⟩ :=
    entry_apply ha (a.tokens.length + 2)
  · rw [hnone]
    rintro ⟨⟩
  · intro h
    have hle : ∀ _ : Unit, a.tokens.length + 2 ≤ a.tokens.length + 2 := fun _ => Nat.le_refl _
    have hread := reads_entryNode hle s hs (by simp [State.kinds, hleft, hne])
      (by simp [State.kinds, hleft])
    rw [← hsome, h] at hread
    exact hread
  · rw [hfault]
    rintro ⟨⟩

/-- What `x` comes to, `y` comes to as well. Only if `x` runs out of fuel may `y` go on. -/
def Grown (x y : Parser α) : Prop := ∀ s, x s = .exhausted ∨ x s = y s

namespace Grown

theorem refl (x : Parser α) : Grown x x := fun _ => .inr rfl

theorem exhausted (y : Parser α) : Grown Step.exhausted y := fun _ => .inl rfl

theorem bind {x y : Parser α} {f g : α → Parser β} (hx : Grown x y)
    (hf : ∀ a, Grown (f a) (g a)) : Grown (x >>= f) (y >>= g) := by
  intro s
  rw [Step.bind_apply, Step.bind_apply]
  obtain hs | hs := hx s
  · rw [hs]
    exact .inl rfl
  · rw [← hs]
    cases x s with
    | ok a s₁ => exact hf a s₁
    | error d s₁ => exact .inr rfl
    | exhausted => exact .inl rfl

/-- The same step on both sides. -/
theorem after {x : Parser α} {f g : α → Parser β} (hf : ∀ a, Grown (f a) (g a)) :
    Grown (x >>= f) (x >>= g) := (refl x).bind hf

/-- The same step on both sides, at the end. -/
theorem before {x y : Parser α} (hx : Grown x y) (f : α → Parser β) :
    Grown (x >>= f) (y >>= f) := hx.bind fun _ => refl _

theorem ite {c : Prop} [Decidable c] {p q p' q' : Parser α} (hp : Grown p p') (hq : Grown q q') :
    Grown (if c then p else q) (if c then p' else q') := by
  split
  · exact hp
  · exact hq

/-- A production that comes to an end with less fuel does the same with more. -/
theorem eq {x y : Parser α} {s : State} (h : Grown x y) (hx : x s ≠ .exhausted) : x s = y s :=
  (h s).resolve_left hx

protected theorem map {x y : Parser α} (h : Grown x y) (f : α → β) :
    Grown (f <$> x) (f <$> y) := by
  simp only [map_eq_pure_bind]
  exact h.before _

theorem trans {x y z : Parser α} (h : Grown x y) (h' : Grown y z) : Grown x z := by
  intro s
  obtain hs | hs := h s
  · exact .inl hs
  · rw [hs]
    exact h' s

/-- What grows with one more unit of fuel grows with any. -/
theorem of_le {x : Nat → Parser α} (h : ∀ n, Grown (x n) (x (n + 1))) {n m : Nat} (hle : n ≤ m) :
    Grown (x n) (x m) := by
  induction hle with
  | refl => exact refl _
  | step _ ih => exact ih.trans (h _)

end Grown

theorem grown_commaList {x y : Parser α} (h : Grown x y) (n : Nat) :
    Grown (commaList x n) (commaList y (n + 1)) := by
  induction n with
  | zero => exact .exhausted _
  | succ n ih =>
    exact h.bind fun _ => .after fun _ => .ite (.after fun _ => ih.before _) (.refl _)

section Expressions

variable {x y : Parser Expr} (h : Grown x y) (n : Nat)
include h

theorem grown_chain (layer : Layer) (op? : Kind → Option Op) (start : Position) (left : Expr) :
    Grown (chain layer op? x start n left) (chain layer op? y start (n + 1) left) := by
  induction n generalizing left with
  | zero => exact .exhausted _
  | succ n ih =>
    refine .after fun k => ?_
    cases op? k with
    | none => exact .refl _
    | some op => exact .after fun _ => h.bind fun _ => .after fun _ => ih _

theorem grown_product : Grown (product x n) (product y (n + 1)) :=
  .after fun _ => h.bind fun _ => grown_chain h n _ _ _ _

theorem grown_sum : Grown (sum x n) (sum y (n + 1)) :=
  .after fun _ => (grown_product h n).bind fun _ => grown_chain (grown_product h n) n _ _ _ _

theorem grown_comparisonFrom (left : Expr) (start : Position) :
    Grown (comparisonFrom x n left start) (comparisonFrom y (n + 1) left start) := by
  refine .after fun k => ?_
  cases relationalOp? k with
  | none => exact .refl _
  | some op => exact .after fun _ => (grown_sum h n).before _

theorem grown_comparison : Grown (comparison x n) (comparison y (n + 1)) :=
  .after fun _ => (grown_sum h n).bind fun _ => grown_comparisonFrom h n _ _

theorem grown_comparisonAfter (first : Expr) (start : Position) :
    Grown (comparisonAfter x n first start) (comparisonAfter y (n + 1) first start) :=
  (grown_chain h n _ _ _ _).bind fun _ => (grown_chain (grown_product h n) n _ _ _ _).bind fun _ =>
    grown_comparisonFrom h n _ _

theorem grown_parenthesized : Grown (parenthesized x) (parenthesized y) :=
  .after fun _ => h.before _

theorem grown_call : Grown (call x n) (call y (n + 1)) := by
  simp only [call, arguments_eq]
  refine .after fun _ => .after fun _ => .before (.after fun _ => .before (.after fun _ => ?_) _) _
  exact .ite (grown_commaList h n) (.refl _)

theorem grown_slot : Grown (slot x) (slot y) :=
  .after fun _ => .after fun _ => .after fun _ => h.before _

theorem grown_readFile : Grown (readFile x) (readFile y) := by
  have hcount : Grown (readCount x) (readCount y) :=
    .after fun _ => .ite (.after fun _ => .after fun _ => .ite (h.before _) (.refl _)) (.refl _)
  exact .after fun _ => .after fun _ => .after fun _ => .after fun _ => hcount.before _

theorem grown_reference {u v : Parser Expr} (hu : Grown u v) (name : String) :
    Grown (reference x u n name) (reference y v (n + 1) name) := by
  refine .after fun k => ?_
  split
  · exact grown_call h n
  · exact (grown_slot hu).before _
  · exact .refl _

theorem grown_factorWith {u v w z : Parser Expr} (hu : Grown u v) (hw : Grown w z) :
    Grown (factorWith x u w n) (factorWith y v z (n + 1)) := by
  refine .after fun t => ?_
  split
  case h_4 => exact grown_reference h n hu _
  case h_7 => exact .after fun _ => (grown_parenthesized h).before _
  case h_8 | h_9 => exact .after fun _ => .after fun _ => hw.before _
  case h_11 | h_12 | h_13 =>
    exact .after fun _ => .after fun _ => (grown_parenthesized h).before _
  case h_14 => exact grown_readFile h
  all_goals exact .refl _

end Expressions

theorem grown_factor (n : Nat) : Grown (factor n) (factor (n + 1)) := by
  induction n with
  | zero => exact .exhausted _
  | succ n ih => exact grown_factorWith (grown_comparison ih n) n (grown_sum ih n) ih

theorem grown_sumExpr (n : Nat) : Grown (sumExpr n) (sumExpr (n + 1)) :=
  grown_sum (grown_factor n) n

theorem grown_expression (n : Nat) : Grown (expression n) (expression (n + 1)) :=
  grown_comparison (grown_factor n) n

theorem grown_statements {x y : Parser Stmt} (h : Grown x y) (n : Nat) :
    Grown (statements x n) (statements y (n + 1)) := by
  induction n with
  | zero => exact .exhausted _
  | succ n ih =>
    exact .after fun _ => .ite (h.bind fun _ => .after fun _ => ih.before _) (.refl _)

section Blocks

variable {x y : Parser Stmt} (h : Grown x y) (n : Nat)
include h

theorem grown_body (conditional : Bool) :
    Grown (body x n conditional) (body y (n + 1) conditional) :=
  .after fun _ => .after fun _ => (grown_statements h n).before _

theorem grown_braced (conditional : Bool) :
    Grown (braced x n conditional) (braced y (n + 1) conditional) :=
  .after fun _ => (grown_body h n conditional).before _

theorem grown_bracedOrSingle : Grown (bracedOrSingle x n) (bracedOrSingle y (n + 1)) :=
  .after fun _ => .ite (grown_braced h n false)
    (.after fun _ => .after fun _ => .ite (h.before _) (.refl _))

end Blocks

section Statements

variable {x y : Parser Expr} (h : Grown x y) (n : Nat)
include h

theorem grown_pair : Grown (pair x) (pair y) :=
  .after fun _ => h.bind fun _ => .after fun _ => h.before _

theorem grown_giveBack : Grown (giveBack x) (giveBack y) := by
  have hvalue : Grown (optionalValue x) (optionalValue y) :=
    .after fun _ => .ite (.after fun _ => .ite (.after fun _ => .ite (.refl _) (h.map _)) (h.map _))
      (.refl _)
  simp only [giveBack_eq]
  exact .after fun _ => .after fun _ => hvalue.before _

theorem grown_assignment : Grown (assignment x) (assignment y) :=
  .after fun _ => .after fun _ => .after fun _ => h.before _

theorem grown_elements : Grown (elements x n) (elements y (n + 1)) := by
  induction n with
  | zero => exact .exhausted _
  | succ n ih =>
    exact .after fun _ => .ite (.refl _)
      (h.bind fun _ => .after fun _ => .ite (.after fun _ => ih.before _) (.refl _))

theorem grown_updateOf (target : Ident × Expr × Span) (start : Position) :
    Grown (updateOf x target start) (updateOf y target start) :=
  .after fun _ => h.before _

theorem grown_print (newline : Bool) : Grown (print x n newline) (print y (n + 1) newline) := by
  simp only [print, arguments_eq]
  refine .after fun _ => .after fun _ => .before (.after fun _ => .before (.after fun _ => ?_) _) _
  exact .ite (grown_commaList h n) (.refl _)

theorem grown_writeFile (newline : Bool) : Grown (writeFile x newline) (writeFile y newline) :=
  .after fun _ => .after fun _ => .after fun _ => .after fun _ => .after fun _ => h.before _

section Names

variable {u v : Parser Expr} (hu : Grown u v)
include hu

theorem grown_declaration : Grown (declaration x u n) (declaration y v (n + 1)) := by
  refine .after fun _ => .after fun _ => .after fun _ => .after fun k => ?_
  split
  · exact .after fun _ => hu.before _
  · exact .after fun _ => (grown_elements h n).before _
  · exact .after fun _ => (grown_pair h).before _
  · exact .after fun _ => (grown_pair h).before _
  · exact .refl _

theorem grown_nameStatement : Grown (nameStatement x u n) (nameStatement y v (n + 1)) := by
  refine .after fun k => ?_
  split
  · exact grown_assignment h
  · exact .refl _
  · exact .refl _
  · exact (grown_call h n).map _
  · exact grown_declaration h n hu
  · exact .after fun _ => (grown_slot hu).bind fun _ => grown_updateOf h _ _
  · exact .refl _

end Names

section Compounds

variable {b c : Parser Body} (hb : Grown b c)
include hb

theorem grown_loop : Grown (loop x b) (loop y c) :=
  .after fun _ => .after fun _ => .after fun _ => (grown_parenthesized h).bind fun _ => hb.before _

theorem grown_range : Grown (range x b) (range y c) :=
  .after fun _ => .after fun _ => .after fun _ => .after fun _ => .after fun _ =>
    (grown_pair h).bind fun _ => hb.before _

theorem grown_orWhens : Grown (orWhens x b n) (orWhens y c (n + 1)) := by
  induction n with
  | zero => exact .exhausted _
  | succ n ih =>
    refine .after fun _ => .ite (.after fun _ => .after fun _ => ?_) (.refl _)
    exact (grown_parenthesized h).bind fun _ => hb.bind fun _ => .after fun _ => ih.before _

theorem grown_conditional : Grown (conditional x b n) (conditional y c (n + 1)) := by
  have hotherwise : Grown (otherwise b) (otherwise c) :=
    .after fun _ => .ite (.after fun _ => .after fun _ => hb.before _) (.refl _)
  refine .after fun _ => .after fun _ => .after fun _ => (grown_parenthesized h).bind fun _ => ?_
  exact hb.bind fun _ => (grown_orWhens h n hb).bind fun _ => hotherwise.before _

theorem grown_statementWith {u v : Parser Expr} (hu : Grown u v) :
    Grown (statementWith x u b n) (statementWith y v c (n + 1)) := by
  refine .after fun _ => .after fun k => ?_
  split
  case h_1 => exact grown_nameStatement h n hu
  case h_2 => exact grown_giveBack h
  case h_3 => exact grown_loop h hb
  case h_4 => exact grown_range h hb
  case h_5 => exact grown_conditional h n hb
  case h_6 | h_7 => exact grown_print h n _
  case h_10 => exact (grown_readFile h).map _
  case h_12 | h_13 => exact grown_writeFile h _
  all_goals exact .refl _

end Compounds

end Statements

theorem grown_statement (n : Nat) : Grown (statement n) (statement (n + 1)) := by
  induction n with
  | zero => exact .exhausted _
  | succ n ih =>
    exact grown_statementWith (grown_expression n) n (grown_braced ih n true) (grown_sumExpr n)

theorem grown_plainBody (n : Nat) : Grown (plainBody n) (plainBody (n + 1)) :=
  grown_body (grown_statement n) n false

theorem grown_definition (n : Nat) : Grown (definition n) (definition (n + 1)) := by
  have hparameters : Grown (parameters n) (parameters (n + 1)) := by
    simp only [parameters_eq]
    exact .after fun _ => .before (.after fun _ => .ite (grown_commaList (.refl _) n) (.refl _)) _
  have hoptional : Grown (optionalParameters n) (optionalParameters (n + 1)) :=
    .after fun _ => .ite hparameters (.refl _)
  simp only [definition_eq]
  exact .after fun _ => .after fun _ => .after fun _ => .after fun _ => hoptional.bind fun _ =>
    .after fun _ => (grown_bracedOrSingle (grown_statement n) n).before _

theorem grown_definitions {x y : Parser FuncDef} (h : Grown x y) (n : Nat) :
    Grown (definitions x n) (definitions y (n + 1)) := by
  induction n with
  | zero => exact .exhausted _
  | succ n ih => exact .after fun _ => .ite (h.bind fun _ => ih.before _) (.refl _)

theorem grown_program (n : Nat) : Grown (program n) (program (n + 1)) := by
  refine .after fun _ => .after fun _ => .after fun _ => .ite (.refl _) (.after fun _ => ?_)
  refine (grown_definitions (grown_definition n) n).bind fun _ => .after fun _ => ?_
  exact (grown_bracedOrSingle (grown_statement n) n).before _

theorem grown_slotEntry (n : Nat) : Grown (slotEntry n) (slotEntry (n + 1)) := by
  refine .after fun _ => (grown_slot (grown_sumExpr n)).bind fun _ => .after fun _ => .ite ?_ ?_
  · exact (grown_updateOf (grown_expression n) _ _).bind fun _ => .after fun _ =>
      (grown_plainBody n).before _
  · exact (grown_comparisonAfter (grown_factor n) n _ _).map _

theorem grown_entryNode (n : Nat) : Grown (entryNode n) (entryNode (n + 1)) := by
  have hname : Grown (nameEntry n) (nameEntry (n + 1)) := by
    refine .after fun k => ?_
    split
    case h_5 => exact grown_slotEntry n
    case h_6 => exact (grown_expression n).map _
    all_goals exact (grown_plainBody n).map _
  refine .after fun k => ?_
  split
  · exact (grown_definition n).map _
  · exact hname
  · exact .ite ((grown_plainBody n).map _) ((grown_expression n).map _)

theorem grown_entry (n : Nat) : Grown (entry n) (entry (n + 1)) :=
  .after fun _ => .after fun _ => .ite (.refl _) (.after fun _ => (grown_entryNode n).before _)

end Kotoba.Syntax
