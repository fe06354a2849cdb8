import Kotoba.Proofs.Syntax.Reads
import Kotoba.Proofs.Syntax.Statement

/-! What is parsed does not depend on what was noted on the way. From two states that differ in
their logs at most, a production yields the same tree, spans included, or fails with the same
diagnostic, and the states it ends in again differ in their logs at most. -/
namespace Kotoba.Syntax

open Token (Lexeme Kind)
open Kotoba.Syntax.Parser

variable {α β : Type}

/-- Two ways to end that differ in what was noted at most. -/
inductive EndsAlike : Outcome State Diagnostic α → Outcome State Diagnostic α → Prop
  | ok {a : α} {s t : State} (state : Alike s t) : EndsAlike (.ok a s) (.ok a t)
  | error {d : Diagnostic} {s t : State} (state : Alike s t) : EndsAlike (.error d s) (.error d t)
  | exhausted : EndsAlike .exhausted .exhausted

theorem Alike.symm {s t : State} (h : Alike s t) : Alike t s :=
  ⟨h.current.symm, h.ahead.symm, h.ending.symm, h.lastStop.symm⟩

theorem EndsAlike.symm {o o' : Outcome State Diagnostic α} (h : EndsAlike o o') :
    EndsAlike o' o := by
  cases h with
  | ok state => exact .ok state.symm
  | error state => exact .error state.symm
  | exhausted => exact .exhausted

theorem EndsAlike.refl (o : Outcome State Diagnostic α) : EndsAlike o o := by
  cases o with
  | ok a s => exact .ok (.refl s)
  | error d s => exact .error (.refl s)
  | exhausted => exact .exhausted

/-- Two productions that end alike from states that differ in what was noted at most. -/
def Deaf (x y : Parser α) : Prop := ∀ s t, Alike s t → EndsAlike (x s) (y t)

namespace Deaf

variable {x y : Parser α} {f g : α → Parser β}

theorem pure (a : α) : Deaf (Pure.pure a) (Pure.pure a) := fun _ _ hst => .ok hst

theorem exhausted : Deaf (α := α) Step.exhausted Step.exhausted := fun _ _ _ => .exhausted

theorem bind (hx : Deaf x y) (hf : ∀ a, Deaf (f a) (g a)) : Deaf (x >>= f) (y >>= g) := by
  intro s t hst
  have hxy := hx s t hst
  rw [Step.bind_apply, Step.bind_apply]
  generalize x s = o, y t = o' at hxy
  cases hxy with
  | ok state => exact hf _ _ _ state
  | error state => exact .error state
  | exhausted => exact .exhausted

theorem map (hx : Deaf x y) (f : α → β) : Deaf (f <$> x) (f <$> y) := by
  rw [map_eq_pure_bind, map_eq_pure_bind]
  exact hx.bind fun _ => .pure _

/-- After a step on the other side that consumes nothing. -/
theorem quiet_right {z : Parser β} {h : β → Parser α} (hz : z.Quiet) (hx : ∀ b, Deaf x (h b)) :
    Deaf x (z >>= h) := by
  intro s t hst
  obtain ⟨b, t', hzt, ht⟩ := hz.alike t
  rw [Step.bind_apply, hzt]
  exact hx b s t' (hst.trans ht)

/-- Reading what is not part of the log. -/
theorem gets {look : State → α} (h : ∀ s t, Alike s t → look s = look t) :
    Deaf (Step.gets look) (Step.gets look) := by
  intro s t hst
  rw [Step.gets, Step.gets, h s t hst]
  exact .ok hst

theorem current : Deaf Parser.current Parser.current := gets fun _ _ h => h.current.symm

theorem kind : Deaf Parser.kind Parser.kind := gets fun _ _ h => by rw [h.current]

theorem here : Deaf Parser.here Parser.here := gets fun _ _ h => by rw [h.current]

theorem finish (start : Position) : Deaf (Parser.finish start) (Parser.finish start) :=
  gets fun _ _ h => by rw [h.lastStop]

/-- The end of a production. -/
theorem spanned (start : Position) (build : Span → α) :
    Deaf (Parser.finish start >>= fun span => Pure.pure (build span))
      (Parser.finish start >>= fun span => Pure.pure (build span)) :=
  (finish start).bind fun _ => .pure _

theorem ite {c : Prop} [Decidable c] {p q p' q' : Parser α} (hp : Deaf p p') (hq : Deaf q q') :
    Deaf (if c then p else q) (if c then p' else q') := by
  split
  · exact hp
  · exact hq

/-- Productions chosen by whether the current token is of a kind. -/
theorem test {k : Kind} {p q p' q' : Parser α} (hp : Deaf p p') (hq : Deaf q q') :
    Deaf (at? k >>= fun b => if b then p else q) (at? k >>= fun b => if b then p' else q') :=
  (gets fun _ _ h => by rw [h.current]).bind fun _ => .ite hp hq

theorem enter (production : String) : Deaf (Parser.enter production) (Parser.enter production) :=
  fun _ _ hst => .ok ⟨hst.current, hst.ahead, hst.ending, hst.lastStop⟩

theorem advance : Deaf Parser.advance Parser.advance := by
  intro s t hst
  unfold Parser.advance
  rw [hst.ahead, hst.ending]
  split
  · refine .ok ⟨rfl, rfl, ?_, by rw [hst.current]⟩
    rw [noteScan_ending, noteScan_ending, hst.ending]
  · refine .ok ⟨rfl, ?_, ?_, by rw [hst.current]⟩
    · rw [noteScan_ahead, noteScan_ahead, hst.ahead]
    · rw [noteScan_ending, noteScan_ending, hst.ending]
  · exact .error hst

theorem peek : Deaf Parser.peek Parser.peek := by
  intro s t hst
  have hnoted : ∀ u : Token,
      Alike { s.noteScan u with peeked := true } { t.noteScan u with peeked := true } := fun u =>
    ((alike_noteScan s u).symm.trans hst).trans (alike_noteScan t u)
  unfold Parser.peek
  rw [hst.ahead, hst.ending]
  split
  · exact .ok (hnoted _)
  · exact .ok (hnoted _)
  · exact .error hst

theorem unexpected (expected : List Bytes) :
    Deaf (α := α) (Parser.unexpected expected) (Parser.unexpected expected) := by
  intro s t hst
  rw [Parser.unexpected, Parser.unexpected, hst.current]
  exact .error hst

/-- A production that begins with a token of a kind. -/
theorem mark {k : Kind} {f g : Unit → Parser β} (hf : Deaf (f ()) (g ())) :
    Deaf (expect k >>= f) (expect k >>= g) :=
  (test advance (unexpected _)).bind fun _ => hf

theorem andAdvance {f g : Unit → Parser β} (hf : Deaf (f ()) (g ())) :
    Deaf (Parser.advance >>= f) (Parser.advance >>= g) := advance.bind fun _ => hf

end Deaf

theorem deaf_expectName : Deaf expectName expectName := by
  refine .bind .current fun t => ?_
  split
  · exact .andAdvance (.pure _)
  · exact .unexpected _

theorem deaf_skipSemicolon : Deaf skipSemicolon skipSemicolon := .test .advance (.pure _)

theorem deaf_operator (op : Op) : Deaf (operator op) (operator op) :=
  .bind .current fun _ => .andAdvance (.pure _)

section Items

variable {x : Parser α} (hx : Deaf x x)
include hx

theorem deaf_commaList (fuel : Nat) : Deaf (commaList x fuel) (commaList x fuel) := by
  induction fuel with
  | zero => exact .exhausted
  | succ fuel ih =>
    exact hx.bind fun _ => .test (.andAdvance (ih.bind fun _ => .pure _)) (.pure _)

theorem deaf_parenthesized : Deaf (parenthesized x) (parenthesized x) :=
  .mark (hx.bind fun _ => .mark (.pure _))

end Items

section Expressions

theorem deaf_leaf (build : Span → Expr) : Deaf (leaf build) (leaf build) :=
  .bind .here fun _ => .andAdvance (.spanned _ _)

theorem deaf_inputLine : Deaf inputLine inputLine := by
  rw [inputLine_eq]
  refine .bind .here fun _ => .mark (.mark (.bind ?_ fun _ => .mark (.spanned _ _)))
  refine .bind .current fun t => ?_
  split
  · exact .andAdvance (.pure _)
  · exact .pure _

theorem deaf_fileVerb (build : Ident → Span → α) : Deaf (fileVerb build) (fileVerb build) :=
  .bind .here fun _ => .andAdvance ((deaf_parenthesized deaf_expectName).bind fun _ =>
    .spanned _ _)

variable {x y z : Parser Expr} (hx : Deaf x x) (fuel : Nat)
include hx

theorem deaf_chain (layer : Layer) (op? : Kind → Option Op) (start : Position) (left : Expr) :
    Deaf (chain layer op? x start fuel left) (chain layer op? x start fuel left) := by
  induction fuel generalizing left with
  | zero => exact .exhausted
  | succ fuel ih =>
    refine .bind .kind fun k => ?_
    cases op? k with
    | none => exact .pure _
    | some op =>
      exact (deaf_operator op).bind fun _ => hx.bind fun _ => (Deaf.finish _).bind fun _ => ih _

theorem deaf_product : Deaf (product x fuel) (product x fuel) :=
  .bind .here fun _ => hx.bind fun _ => deaf_chain hx fuel _ _ _ _

theorem deaf_sum : Deaf (sum x fuel) (sum x fuel) :=
  .bind .here fun _ => (deaf_product hx fuel).bind fun _ =>
    deaf_chain (deaf_product hx fuel) fuel _ _ _ _

theorem deaf_comparison : Deaf (comparison x fuel) (comparison x fuel) := by
  refine .bind .here fun _ => (deaf_sum hx fuel).bind fun left => .bind .kind fun k => ?_
  cases relationalOp? k with
  | none => exact .pure _
  | some op =>
    exact (deaf_operator op).bind fun _ => (deaf_sum hx fuel).bind fun _ => .spanned _ _

theorem deaf_arguments : Deaf (arguments x fuel) (arguments x fuel) := by
  rw [arguments_eq]
  exact .mark ((Deaf.bind .kind fun _ => .ite (deaf_commaList hx fuel) (.pure _)).bind fun _ =>
    .mark (.pure _))

theorem deaf_call : Deaf (call x fuel) (call x fuel) :=
  .bind .here fun _ => deaf_expectName.bind fun _ => (deaf_arguments hx fuel).bind fun _ =>
    .spanned _ _

theorem deaf_slot : Deaf (slot x) (slot x) :=
  .bind .here fun _ => deaf_expectName.bind fun _ => .mark (hx.bind fun _ => .mark (.spanned _ _))

theorem deaf_readFile : Deaf (readFile x) (readFile x) := by
  have hcount : Deaf (readCount x) (readCount x) :=
    .test (.andAdvance (.bind .kind fun _ => .ite (hx.bind fun _ => .pure _) (.pure _))) (.pure _)
  exact .bind .here fun _ => .andAdvance (.mark (deaf_expectName.bind fun _ =>
    hcount.bind fun _ => .mark (.spanned _ _)))

theorem deaf_conversion (build : Expr → Span → Expr) :
    Deaf (conversion x build) (conversion x build) :=
  .bind .here fun _ => .andAdvance ((deaf_parenthesized hx).bind fun _ => .spanned _ _)

theorem deaf_negation (op : Op) : Deaf (negation op x) (negation op x) :=
  .bind .here fun _ => (deaf_operator op).bind fun _ => hx.bind fun _ => .spanned _ _

theorem deaf_group : Deaf (group x) (group x) :=
  .bind .here fun _ => (deaf_parenthesized hx).bind fun _ => .spanned _ _

theorem deaf_reference (hy : Deaf y y) (name : String) :
    Deaf (reference x y fuel name) (reference x y fuel name) := by
  refine .bind .peek fun k => ?_
  split
  · exact deaf_call hx fuel
  · exact (deaf_slot hy).bind fun _ => .pure _
  · exact deaf_leaf _

theorem deaf_factorWith (hy : Deaf y y) (hz : Deaf z z) :
    Deaf (factorWith x y z fuel) (factorWith x y z fuel) := by
  refine .bind .current fun t => ?_
  split
  case h_4 => exact deaf_reference hx fuel hy _
  case h_7 => exact deaf_group hx
  case h_8 | h_9 => exact deaf_negation hz _
  case h_10 => exact deaf_inputLine
  case h_11 | h_12 | h_13 => exact deaf_conversion hx _
  case h_14 => exact deaf_readFile hx
  case h_15 | h_16 => exact deaf_fileVerb _
  case h_17 => exact .unexpected _
  all_goals exact deaf_leaf _

end Expressions

theorem deaf_factor (fuel : Nat) : Deaf (factor fuel) (factor fuel) := by
  induction fuel with
  | zero => exact .exhausted
  | succ fuel ih => exact deaf_factorWith (deaf_comparison ih fuel) fuel (deaf_sum ih fuel) ih

theorem deaf_sumExpr (fuel : Nat) : Deaf (sumExpr fuel) (sumExpr fuel) :=
  deaf_sum (deaf_factor fuel) fuel

theorem deaf_expression (fuel : Nat) : Deaf (expression fuel) (expression fuel) :=
  deaf_comparison (deaf_factor fuel) fuel

section Blocks

variable {x : Parser Stmt} (hx : Deaf x x) (fuel : Nat)

theorem deaf_finalJump : Deaf finalJump finalJump := by
  have hjump : ∀ build : Span → Stmt, Deaf (jump build) (jump build) := fun _ =>
    .bind .here fun _ => .andAdvance ((Deaf.finish _).bind fun _ =>
      deaf_skipSemicolon.bind fun _ => .pure _)
  refine .bind .kind fun k => ?_
  split
  · exact hjump _
  · exact hjump _
  · exact .pure _

include hx

theorem deaf_statements : Deaf (statements x fuel) (statements x fuel) := by
  induction fuel with
  | zero => exact .exhausted
  | succ fuel ih =>
    refine .bind .kind fun k => .ite ?_ (.pure _)
    exact hx.bind fun _ => deaf_skipSemicolon.bind fun _ => ih.bind fun _ => .pure _

theorem deaf_braced (conditional : Bool) :
    Deaf (braced x fuel conditional) (braced x fuel conditional) := by
  refine .mark (.bind ?_ fun _ => .mark (.pure _))
  cases conditional with
  | false =>
    exact .bind (.enter _) fun _ => .bind .here fun _ =>
      (deaf_statements hx fuel).bind fun _ => .spanned _ _
  | true =>
    exact .bind (.enter _) fun _ => .bind .here fun _ =>
      (deaf_statements hx fuel).bind fun _ => deaf_finalJump.bind fun _ => .spanned _ _

end Blocks

section Statements

variable {x y : Parser Expr} (hx : Deaf x x) (hy : Deaf y y) (fuel : Nat)

theorem deaf_advancement (op : Op) : Deaf (advancement op) (advancement op) :=
  .bind .here fun _ => deaf_expectName.bind fun _ => (deaf_operator op).bind fun _ =>
    .spanned _ _

include hx

theorem deaf_pair : Deaf (pair x) (pair x) :=
  .mark (hx.bind fun _ => .mark (hx.bind fun _ => .mark (.pure _)))

theorem deaf_giveBack : Deaf (giveBack x) (giveBack x) := by
  rw [giveBack_eq]
  refine .bind .here fun _ => .andAdvance (.bind ?_ fun _ => .spanned _ _)
  refine .bind .kind fun k => .ite (.test (.bind .peek fun k => ?_) (hx.map _)) (.pure _)
  exact .ite (.pure _) (hx.map _)

theorem deaf_assignment : Deaf (assignment x) (assignment x) :=
  .bind .here fun _ => deaf_expectName.bind fun _ => .mark (hx.bind fun _ => .spanned _ _)

theorem deaf_elements : Deaf (elements x fuel) (elements x fuel) := by
  induction fuel with
  | zero => exact .exhausted
  | succ fuel ih =>
    exact .test (.pure _) (hx.bind fun _ =>
      .test (.andAdvance (ih.bind fun _ => .pure _)) (.pure _))

theorem deaf_updateOf (slot : Ident × Expr × Span) (start : Position) :
    Deaf (updateOf x slot start) (updateOf x slot start) :=
  .mark (hx.bind fun _ => .spanned _ _)

theorem deaf_print (newline : Bool) : Deaf (print x fuel newline) (print x fuel newline) :=
  .bind .here fun _ => .andAdvance ((deaf_arguments hx fuel).bind fun _ => .spanned _ _)

theorem deaf_writeFile (newline : Bool) : Deaf (writeFile x newline) (writeFile x newline) :=
  .bind .here fun _ => .andAdvance (.mark (deaf_expectName.bind fun _ => .mark
    (hx.bind fun _ => .mark (.spanned _ _))))

include hy in
theorem deaf_declaration : Deaf (declaration x y fuel) (declaration x y fuel) := by
  refine .bind .here fun _ => deaf_expectName.bind fun _ => .mark (.bind .kind fun k => ?_)
  split
  · exact .andAdvance (hy.bind fun _ => .mark (.spanned _ _))
  · exact .andAdvance ((deaf_elements hx fuel).bind fun _ => .mark (.spanned _ _))
  · exact .andAdvance ((deaf_pair hx).bind fun _ => .spanned _ _)
  · exact .andAdvance ((deaf_pair hx).bind fun _ => .spanned _ _)
  · exact .unexpected _

include hy in
theorem deaf_nameStatement : Deaf (nameStatement x y fuel) (nameStatement x y fuel) := by
  refine .bind .peek fun k => ?_
  split
  · exact deaf_assignment hx
  · exact deaf_advancement _
  · exact deaf_advancement _
  · exact (deaf_call hx fuel).map _
  · exact deaf_declaration hx hy fuel
  · exact .bind .here fun _ => (deaf_slot hy).bind fun _ => deaf_updateOf hx _ _
  · exact .andAdvance (.unexpected _)

variable {b : Parser Body} (hb : Deaf b b)
include hb

theorem deaf_loop : Deaf (loop x b) (loop x b) :=
  .bind (.enter _) fun _ => .bind .here fun _ => .andAdvance
    ((deaf_parenthesized hx).bind fun _ => hb.bind fun _ => .spanned _ _)

theorem deaf_range : Deaf (range x b) (range x b) :=
  .bind (.enter _) fun _ => .bind .here fun _ => .andAdvance (deaf_expectName.bind fun _ =>
    .mark ((deaf_pair hx).bind fun _ => hb.bind fun _ => .spanned _ _))

theorem deaf_orWhens : Deaf (orWhens x b fuel) (orWhens x b fuel) := by
  induction fuel with
  | zero => exact .exhausted
  | succ fuel ih =>
    refine .test (.bind .here fun _ => .andAdvance ?_) (.pure _)
    exact (deaf_parenthesized hx).bind fun _ => hb.bind fun _ => (Deaf.finish _).bind fun _ =>
      ih.bind fun _ => .pure _

omit hx in
theorem deaf_otherwise : Deaf (otherwise b) (otherwise b) :=
  .test (.bind .here fun _ => .andAdvance (hb.bind fun _ => .spanned _ _)) (.pure _)

theorem deaf_conditional : Deaf (conditional x b fuel) (conditional x b fuel) :=
  .bind (.enter _) fun _ => .bind .here fun _ => .andAdvance
    ((deaf_parenthesized hx).bind fun _ => hb.bind fun _ => (deaf_orWhens hx fuel hb).bind fun _ =>
      (deaf_otherwise hb).bind fun _ => .spanned _ _)

include hy

theorem deaf_statementWith : Deaf (statementWith x y b fuel) (statementWith x y b fuel) := by
  refine .bind (.enter _) fun _ => .bind .kind fun k => ?_
  split
  case h_1 => exact deaf_nameStatement hx hy fuel
  case h_2 => exact deaf_giveBack hx
  case h_3 => exact deaf_loop hx hb
  case h_4 => exact deaf_range hx hb
  case h_5 => exact deaf_conditional hx fuel hb
  case h_6 | h_7 => exact deaf_print hx fuel _
  case h_8 => exact deaf_inputLine.map _
  case h_9 => exact deaf_fileVerb _
  case h_10 => exact (deaf_readFile hx).map _
  case h_11 => exact (deaf_fileVerb _).map _
  case h_12 | h_13 => exact deaf_writeFile hx _
  case h_14 => exact .unexpected _

end Statements

theorem deaf_statement (fuel : Nat) : Deaf (statement fuel) (statement fuel) := by
  induction fuel with
  | zero => exact .exhausted
  | succ fuel ih =>
    exact deaf_statementWith (deaf_expression fuel) (deaf_sumExpr fuel) fuel
      (deaf_braced ih fuel true)

end Kotoba.Syntax
