import Mathlib.Data.List.Basic
import Kotoba.Proofs.Syntax.Accepted

/-! What is derived is parsed: on the tokens of a program, the parser finds that program again. -/
namespace Kotoba.Syntax

open Token (Lexeme Kind)
open Kotoba.Syntax.Parser

section Statements

variable {n : Nat} {ts us vs ws : List Lexeme} {e f : Expr} {es : List Expr} {b : Body}
  {span : Span}

/-- A statement that does not care for what follows, if it only may follow a statement. -/
theorem accepted_statement {l : Lexeme} {s : Stmt} (h : ∀ n, Accepts (n + 1) (Before endsStatement)
      (l :: us) (statementAt (expression n) (sumExpr n) (braced (statement n) n true) n l.kind)
      fun s' => s'.bare = s.bare) : Accepted .statement (l :: us) s :=
  fun n => (accepts_statement h n).followed fun _ hrest => hrest.1

/-- An expression ends where a statement may end. -/
theorem AcceptedExpr.last (h : AcceptedExpr ts e) (n : Nat) :
    Accepts n (Before endsStatement) ts (expression n) fun e' => e'.bare = e.bare :=
  (h.accepts n).followed fun _ hrest => endsComparison_of_endsStatement hrest

theorem optionalValue_none {x : Parser Expr} {s : State} {rest : List Lexeme} (hs : Ready s rest)
    (h : startsExpression (front rest).kind = false ∨
      ∃ x more, rest = .identifier x :: .of .assign :: more) :
    ∃ s', optionalValue x s = .ok none s' ∧ Ready s' rest := by
  obtain h | ⟨name, more, rfl⟩ := h
  · refine ⟨s, ?_, hs⟩
    rw [optionalValue, Step.bind_apply, Parser.kind, Step.gets]
    dsimp only
    rw [hs.kind, h]
    rfl
  · obtain ⟨s₁, hpeek, hs₁⟩ := hs.peek
    refine ⟨s₁, ?_, hs₁⟩
    rw [optionalValue, Step.bind_apply, Parser.kind, Step.gets]
    dsimp only
    rw [hs.kind, if_pos (by rfl), Step.bind_apply, at?, Step.gets]
    dsimp only
    rw [hs.kind, if_pos (by rfl), Step.bind_apply, hpeek]
    rfl

theorem accepted_giveBackNone : Accepted .statement [.of .giveBack] (Stmt.giveBack none span) := by
  refine accepts_statement fun n => ?_
  rw [Lexeme.kind, statementAt, giveBack_eq]
  refine .quiet quiet_here fun start => .word (Nat.le_refl _) ?_
  refine Accepts.goOn (P := fun value => value = none) (B := Separated [.of .giveBack]) ?_ ?_
    fun rest hrest => hrest.2
  · intro s rest hs hrest _
    obtain ⟨s', hvalue, hs'⟩ := optionalValue_none hs (hrest rfl)
    exact ⟨none, s', hvalue, hs', rfl⟩
  · rintro _ rfl
    exact .spanned fun span => rfl

theorem accepted_giveBack (h : AcceptedExpr ts e) (hassign : .mark .assign ∉ ts.map Lexeme.kind) :
    Accepted .statement (.of .giveBack :: ts) (Stmt.giveBack (some e) span) := by
  refine accepted_statement fun n => ?_
  rw [Lexeme.kind, statementAt, giveBack_eq]
  refine .quiet quiet_here fun start => .word (Nat.le_refl _) ?_
  refine Accepts.goOn (P := fun value => value.map Expr.bare = some e.bare) ?_
    (fun value hvalue => .spanned fun span => by rw [Stmt.bare, Stmt.bare, hvalue]; rfl)
    fun _ h => h
  have hvalue : Accepts n (Before endsStatement) ts (some <$> expression n) fun value =>
      value.map Expr.bare = some e.bare := (h.last n).map fun e' he => by simp [he]
  obtain ⟨l, us, rfl, hl⟩ := h.opens
  refine .choose ?_
  rw [hl, if_pos rfl]
  by_cases hk : l.kind = .identifier
  · refine .test hk (.peek (fun rest hrest => if_neg ?_) hvalue)
    -- a name is assigned to only if that begins a statement of its own
    cases us with
    | nil =>
      rw [Before] at hrest
      rw [List.nil_append]
      intro hassign
      rw [eq_of_beq hassign] at hrest
      cases hrest
    | cons l' us =>
      intro hk
      apply hassign
      rw [List.map_cons, List.map_cons, ← eq_of_beq hk]
      simp [front]
  · exact .skip (fun rest _ => hk) hvalue

theorem accepted_assign {target : Ident} (h : AcceptedExpr ts e) :
    Accepted .statement (.identifier target.name :: .of .assign :: ts)
      (Stmt.assign target e span) := by
  refine accepted_statement fun n => .lookAt ?_
  refine .quiet quiet_here fun start => .ident (Nat.le_refl _) fun target' htarget => ?_
  refine .mark (Nat.le_succ n) ((h.last n).goOn (fun e' he => .spanned fun span => ?_) fun _ h => h)
  rw [Stmt.bare, Stmt.bare, Ident.bare_eq htarget, he]

theorem accepted_advance {m : Mark} {op : Op} {target : Ident} {opSpan : Span}
    (hm : advanceOp? m = some op) : Accepted .statement [.identifier target.name, .of m]
      (Stmt.advance target ⟨op, opSpan⟩ span) := by
  have hadvance (n : Nat) : Accepts (n + 1) (Before endsStatement)
      [.identifier target.name, .of m] (advancement op) fun s =>
        s.bare = (Stmt.advance target ⟨op, opSpan⟩ span).bare := by
    refine .quiet quiet_here fun start => .ident (Nat.le_succ _) fun target' htarget => ?_
    refine .operator (Nat.le_succ _) fun o ho => .spanned fun span => ?_
    rw [Stmt.bare, Stmt.bare, Ident.bare_eq htarget, Operator.bare_eq (p := ⟨op, opSpan⟩) ho]
  refine accepted_statement fun n => .lookAt ?_
  unfold advanceOp? at hm
  split at hm <;> cases hm <;> exact hadvance n

theorem accepted_act (h : Accepted .action ts e) : Accepted .statement ts (Stmt.expr e) :=
  fun n => (h.2 n).followed fun _ _ => trivial

/-- What a name is bound to, by the kind of the token after the arrow. -/
def declaredAt (expr sum : Parser Expr) (fuel : Nat) (target : Ident) (start : Position) :
    Kind → Parser Stmt
  | .mark .openBracket => do
    advance
    let size ← sum
    expect Mark.closeBracket
    pure (.allocate target size (← finish start))
  | .mark .openBrace => do
    advance
    let items ← Parser.elements expr fuel
    expect Mark.closeBrace
    pure (.collect target items (← finish start))
  | .mark .openFile => do
    advance
    let (path, mode) ← pair expr
    pure (.openFile target path mode (← finish start))
  | .mark .split => do
    advance
    let (source, separator) ← pair expr
    pure (.split target source separator (← finish start))
  | _ => unexpected ([.openBracket, .openBrace, .openFile, .split].map Token.markExpectation)

theorem accepted_declaration {m : Mark} {target : Ident} {s : Stmt}
    (h : ∀ n start target', target'.bare = target.bare →
      Accepts n (Before endsStatement) (.of m :: us)
        (declaredAt (expression n) (sumExpr n) n target' start (.mark m)) fun s' =>
          s'.bare = s.bare) :
    Accepted .statement (.identifier target.name :: .of .arrow :: .of m :: us) s := by
  refine accepted_statement fun n => .lookAt ?_
  refine .quiet quiet_here fun start => .ident (Nat.le_refl _) fun target' htarget => ?_
  refine .mark (Nat.le_succ n) (.choose (p := declaredAt (expression n) (sumExpr n) n target' start)
    (h n start target' (Ident.bare_eq htarget)))

theorem accepted_allocate {target : Ident} (h : Accepted .sum ts e) :
    Accepted .statement (.identifier target.name :: .of .arrow :: .of .openBracket ::
      (ts ++ [.of .closeBracket])) (Stmt.allocate target e span) := by
  refine accepted_declaration fun n start target' htarget => .word (Nat.le_succ n) ?_
  refine (h.sum n).seq (fun e' he => .mark (Nat.le_succ n) (.spanned fun span => ?_)) fun _ _ => rfl
  rw [Stmt.bare, Stmt.bare, htarget, he]

theorem accepted_collect {target : Ident} (h : Accepted .elements ts es) :
    Accepted .statement (.identifier target.name :: .of .arrow :: .of .openBrace ::
      (ts ++ [.of .closeBrace])) (Stmt.collect target es span) := by
  refine accepted_declaration fun n start target' htarget => .word (Nat.le_succ n) ?_
  refine .seq (B := Before (· == .mark .closeBrace))
    (P := fun es' => Expr.bareAll es' = Expr.bareAll es) ?_ ?_ fun _ _ => rfl
  · obtain ⟨rfl, rfl⟩ | hes := h
    · cases n with
      | zero => exact .zero
      | succ n =>
        exact .hit (fun rest hrest => eq_of_beq hrest) (.pure rfl)
    · exact accepts_elements hes (Nat.le_refl n)
  · refine fun es' hes => .mark (Nat.le_succ n) (.spanned fun span => ?_)
    rw [Stmt.bare, Stmt.bare, htarget, hes]

/-- Two arguments are a pair. -/
theorem accepted_openFile {target : Ident} (h : Accepted .arguments ts es) (htwo : es.length = 2) :
    Accepted .statement (.identifier target.name :: .of .arrow :: .of .openFile :: ts)
      (openTree target es span) := by
  obtain ⟨a, b, rfl⟩ := List.length_eq_two.mp htwo
  refine accepted_declaration fun n start target' htarget => .word (Nat.le_succ n) ?_
  refine (h.pair n).goOn ?_ fun _ _ => trivial
  rintro ⟨a', b'⟩ ⟨ha, hb⟩
  refine .spanned fun span => ?_
  rw [openTree, Stmt.bare, Stmt.bare, htarget, ha, hb]

theorem accepted_split {target : Ident} (h : Accepted .arguments ts es) (htwo : es.length = 2) :
    Accepted .statement (.identifier target.name :: .of .arrow :: .of .split :: ts)
      (splitTree target es span) := by
  obtain ⟨a, b, rfl⟩ := List.length_eq_two.mp htwo
  refine accepted_declaration fun n start target' htarget => .word (Nat.le_succ n) ?_
  refine (h.pair n).goOn ?_ fun _ _ => trivial
  rintro ⟨a', b'⟩ ⟨ha, hb⟩
  refine .spanned fun span => ?_
  rw [splitTree, Stmt.bare, Stmt.bare, htarget, ha, hb]

theorem accepted_update {array : Ident} {slot : Span} (hi : Accepted .sum ts e)
    (hv : AcceptedExpr us f) :
    Accepted .statement (.identifier array.name :: .of .openBracket ::
      (ts ++ .of .closeBracket :: .of .assign :: us)) (Stmt.update array e slot f span) := by
  refine accepted_statement fun n => .lookAt (.quiet quiet_here fun start => ?_)
  have hlist : Lexeme.identifier array.name :: .of .openBracket ::
      (ts ++ .of .closeBracket :: .of .assign :: us) =
      (.identifier array.name :: .of .openBracket :: (ts ++ [.of .closeBracket])) ++
        .of .assign :: us := by simp
  rw [hlist]
  refine (accepts_slot (A := anything) hi).seq ?_ fun _ _ => trivial
  rintro ⟨array', index, slot'⟩ ⟨ha, hi'⟩
  refine .mark (Nat.le_refl _) ?_
  refine (hv.last n).goOn (fun f' hf => .spanned fun span => ?_) fun _ h => h
  rw [Stmt.bare, Stmt.bare, ha, hi', hf]

theorem accepted_print {newline : Bool} (h : Accepted .arguments ts es) :
    Accepted .statement (.of (printMark newline) :: ts) (Stmt.print es newline span) := by
  have hprint (n : Nat) : Accepts (n + 1) (Before endsStatement) (.of (printMark newline) :: ts)
      (print (expression n) n newline) fun s => s.bare = (Stmt.print es newline span).bare := by
    refine .quiet quiet_here fun start => .word (Nat.le_refl _) ?_
    refine (h.arguments n).goOn (fun es' hes => .spanned fun span => ?_) fun _ _ => trivial
    rw [Stmt.bare, Stmt.bare, hes]
  refine accepted_statement fun n => ?_
  cases newline <;> exact hprint n

theorem accepted_closeFile {file : Ident} :
    Accepted .statement [.of .closeFile, .of .openParen, .identifier file.name, .of .closeParen]
      (Stmt.closeFile file span) := by
  refine accepted_statement fun n => accepts_fileVerb fun file' span hfile => ?_
  rw [Stmt.bare, Stmt.bare, hfile]

theorem accepted_write {file : Ident} {newline : Bool} (h : AcceptedExpr ts e) :
    Accepted .statement (.of (writeMark newline) :: .of .openParen :: .identifier file.name ::
      .of .comma :: (ts ++ [.of .closeParen])) (Stmt.write file e newline span) := by
  have hwrite (n : Nat) : Accepts (n + 1) (Before endsStatement) (.of (writeMark newline) ::
      .of .openParen :: .identifier file.name :: .of .comma :: (ts ++ [.of .closeParen]))
      (writeFile (expression n) newline) fun s =>
        s.bare = (Stmt.write file e newline span).bare := by
    refine .quiet quiet_here fun start => .word (Nat.le_refl _) (.mark (Nat.le_succ n) ?_)
    refine .ident (Nat.le_succ n) fun file' hfile => .mark (Nat.le_succ n) ?_
    refine (h.accepts n).seq (fun e' he => .mark (Nat.le_succ n) (.spanned fun span => ?_))
      fun _ _ => rfl
    rw [Stmt.bare, Stmt.bare, Ident.bare_eq hfile, he]
  refine accepted_statement fun n => ?_
  cases newline <;> exact hwrite n

theorem accepted_loop (h : AcceptedExpr ts e) (hb : Accepted (.block true) us b) :
    Accepted .statement (.of .loop :: .of .openParen :: (ts ++ .of .closeParen :: us))
      (Stmt.loop e b span) := by
  refine accepted_statement fun n => .quiet (quiet_enter _) fun _ => .quiet quiet_here fun _ => ?_
  refine .word (Nat.le_refl _) ?_
  refine .inParens (Nat.le_succ n) (h.accepts n) (fun _ => rfl) fun e' he => ?_
  refine (hb n).goOn (fun b' hb' => .spanned fun span => ?_) fun _ _ => trivial
  rw [Stmt.bare, Stmt.bare, he, Body.bare?, Body.bare?, hb']

theorem accepted_range {counter : Ident} (hf : AcceptedExpr ts e) (hl : AcceptedExpr us f)
    (hb : Accepted (.block true) vs b) :
    Accepted .statement (.of .range :: .identifier counter.name :: .of .arrow :: .of .openParen ::
      (ts ++ .of .comma :: (us ++ .of .closeParen :: vs))) (Stmt.range counter e f b span) := by
  have hpair : Accepted .arguments
      (.of .openParen :: (ts ++ .of .comma :: (us ++ [.of .closeParen]))) [e, f] :=
    ⟨ts ++ .of .comma :: us, by simp, .inr (.more hf (.one hl))⟩
  refine accepted_statement fun n => .quiet (quiet_enter _) fun _ => .quiet quiet_here fun _ => ?_
  refine .word (Nat.le_refl _) (.ident (Nat.le_succ n) fun counter' hc => .mark (Nat.le_succ n) ?_)
  have hlist : Lexeme.of .openParen :: (ts ++ .of .comma :: (us ++ .of .closeParen :: vs)) =
      (.of .openParen :: (ts ++ .of .comma :: (us ++ [.of .closeParen]))) ++ vs := by simp
  rw [hlist]
  refine (hpair.pair n).seq ?_ fun _ _ => trivial
  rintro ⟨e', f'⟩ ⟨he, hf⟩
  refine (hb n).goOn (fun b' hb' => .spanned fun span => ?_) fun _ _ => trivial
  rw [Stmt.bare, Stmt.bare, Ident.bare_eq hc, he, hf, Body.bare?, Body.bare?, hb']

theorem accepted_orWhens {others : List OrWhen} (h : AcceptedExpr ts e)
    (hb : Accepted (.block true) us b) (hothers : Accepted .orWhens vs others) :
    Accepted .orWhens (.of .orWhen :: .of .openParen :: (ts ++ .of .closeParen :: (us ++ vs)))
      (⟨e, b, span⟩ :: others) := by
  intro n k hk
  cases k with
  | zero => exact .zero
  | succ k =>
    refine .test rfl (.quiet quiet_here fun start => .word (Nat.le_refl _) ?_)
    have hkn : k ≤ n := Nat.le_of_succ_le hk
    refine .inParens (Nat.le_succ k) ((h.accepts n).within hkn) (fun _ => rfl) fun e' he => ?_
    refine ((hb n).within hkn).seq (fun b' hb' => ?_) fun _ _ => trivial
    refine .quiet (quiet_finish _) fun span => (hothers n k hkn).goOn (fun others' ho => ?_)
      fun _ h => h
    exact .pure (by simp [OrWhen.bareAll, Body.bare?, he, hb', ho])

theorem accepted_noOrWhens : Accepted .orWhens [] [] := by
  intro n k _
  cases k with
  | zero => exact .zero
  | succ k => exact .skip (fun rest hrest => by simpa [Before] using hrest) (.pure rfl)

theorem accepted_noOtherwise : Accepted .otherwise [] none :=
  fun _ => .skip (fun rest hrest => by simpa [Before] using hrest) (.pure rfl)

theorem accepted_otherwise (hb : Accepted (.block true) us b) :
    Accepted .otherwise (.of .otherwise :: us) (some ⟨b, span⟩) := by
  refine fun n => .test rfl (.quiet quiet_here fun start => .word (Nat.le_succ n) ?_)
  refine (hb n).goOn (fun b' hb' => .quiet (quiet_finish _) fun span => .pure ?_) fun _ _ => trivial
  simp [Otherwise.bare?, Body.bare?, hb']

theorem accepted_when {others : List OrWhen} {last : Option Otherwise} (h : AcceptedExpr ts e)
    (hb : Accepted (.block true) us b) (hothers : Accepted .orWhens vs others)
    (hlast : Accepted .otherwise ws last) (hws : ws = [] ∨ ∃ xs, ws = .of .otherwise :: xs) :
    Accepted .statement (.of .when :: .of .openParen ::
      (ts ++ .of .closeParen :: (us ++ (vs ++ ws)))) (Stmt.when e b others last span) := by
  refine accepted_statement fun n => .quiet (quiet_enter _) fun _ => .quiet quiet_here fun _ => ?_
  refine .word (Nat.le_refl _) ?_
  refine .inParens (Nat.le_succ n) (h.accepts n) (fun _ => rfl) fun e' he => ?_
  refine (hb n).seq (fun b' hb' => ?_) fun _ _ => trivial
  have hne {k : Kind} (hk : endsStatement k) : (k != .mark .orWhen) ∧ (k != .mark .otherwise) := by
    cases k with
    | mark m => cases m <;> first | exact ⟨rfl, rfl⟩ | cases hk
    | _ => exact ⟨rfl, rfl⟩
  refine (hothers n n (Nat.le_refl n)).seq (fun others' ho => ?_) fun rest hrest => ?_
  · refine (hlast n).goOn (fun last' hl => .spanned fun span => ?_) fun rest hrest => (hne hrest).2
    rw [Stmt.bare, Stmt.bare, he, ho, hl, Body.bare?, Body.bare?, hb']
  · obtain rfl | ⟨xs, rfl⟩ := hws
    · exact (hne hrest).1
    · rfl

end Statements

section Blocks

variable {n : Nat} {ts us : List Lexeme} {s : Stmt} {ss : List Stmt} {b : Body} {span : Span}

theorem accepts_skipSemicolon {A : List Lexeme → Prop} (present : Bool)
    (h : ∀ rest, A rest → (front rest).kind ≠ .mark .semicolon) :
    Accepts n A (semicolon? present) skipSemicolon fun _ => True := by
  cases present with
  | false => exact .skip h (.pure trivial)
  | true => exact .test rfl .advance

theorem accepted_noStatements : Accepted .statements [] [] := by
  intro n k _
  cases k with
  | zero => exact .zero
  | succ k =>
    refine .kind (fun rest hrest => ?_) (.pure rfl)
    rw [List.nil_append]
    rw [Before] at hrest
    generalize (front rest).kind = k at hrest ⊢
    cases k with
    | mark m => cases m <;> first | rfl | cases hrest
    | _ => cases hrest

theorem accepted_statements {semicolon : Bool} (hs : Accepted .statement ts s)
    (hss : Accepted .statements us ss)
    (hts : ∃ l vs, ts = l :: vs ∧ startsStatement l.kind)
    (hus : us = [] ∨ ∃ l vs, us = l :: vs ∧ startsStatement l.kind)
    (hseparated : Separated ts (semicolon? semicolon ++ us)) :
    Accepted .statements (ts ++ (semicolon? semicolon ++ us)) (s :: ss) := by
  intro n k hk
  cases k with
  | zero => exact .zero
  | succ k =>
    have hkn : k ≤ n := Nat.le_of_succ_le hk
    have hpos : k + 1 ≤ k + ts.length := by
      obtain ⟨l, vs, rfl, -⟩ := hts
      simp
    -- what directly follows the semicolon, or stands in its place
    have hnext (rest : List Lexeme) (hrest : Before endsStatements rest) :
        endsStatement (front (us ++ rest)).kind ∧
          (front (us ++ rest)).kind ≠ .mark .semicolon := by
      obtain rfl | ⟨l, vs, rfl, hl⟩ := hus
      · refine ⟨endsStatement_of_endsStatements hrest, fun hk => ?_⟩
        rw [List.nil_append] at hk
        rw [Before, hk] at hrest
        cases hrest
      · rw [List.cons_append, front]
        refine ⟨by rw [endsStatement, hl]; rfl, fun hk => ?_⟩
        rw [hk] at hl
        cases hl
    have hsemicolon (rest : List Lexeme) (hrest : Before endsStatements rest) :
        Before endsStatement ((semicolon? semicolon ++ us) ++ rest) ∧
          Separated ts ((semicolon? semicolon ++ us) ++ rest) := by
      refine ⟨?_, hseparated.append ?_⟩
      · cases semicolon with
        | false => exact (hnext rest hrest).1
        | true => rfl
      · rw [Before] at hrest
        generalize (front rest).kind = k at hrest ⊢
        cases k with
        | mark m => cases m <;> first | rfl | cases hrest
        | _ => cases hrest
    obtain ⟨l, vs, rfl, hl⟩ := hts
    refine .choose ?_
    rw [hl, if_pos rfl]
    refine ((hs n).within hk).bind (fun s' hs' => ?_) hsemicolon hpos
    refine (accepts_skipSemicolon semicolon (A := Before fun k => k ≠ .mark .semicolon) ?_).seq
      (fun _ _ => ?_) fun rest hrest => ?_
    · exact fun rest hrest => by simpa [Before] using hrest
    · refine (hss n k hkn).goOn (fun ss' hss' => .pure ?_) fun _ h => h
      simp [Stmt.bareAll, hs', hss']
    · simpa [Before] using (hnext rest hrest).2

theorem accepted_body {conditional : Bool} (hss : Accepted .statements ts ss) :
    Accepted (.body conditional) ts (⟨ss, span⟩ : Body) := by
  refine fun n => .quiet (quiet_enter _) fun _ => .quiet quiet_here fun start => ?_
  refine (hss n n (Nat.le_refl n)).goOn (fun ss' hss' => ?_) fun rest hrest => ?_
  · cases conditional with
    | false => exact .spanned fun span => by simp [Body.bare, hss']
    | true =>
      refine .goOn (P := fun last => last = []) (B := Before (· == .mark .closeBrace))
        (.kind (fun rest hrest => ?_) (.pure rfl)) ?_ fun _ h => h
      · rw [List.nil_append, eq_of_beq hrest]
      · rintro _ rfl
        exact .spanned fun span => by simp [Body.bare, hss']
  · rw [Before, eq_of_beq hrest]
    rfl

theorem accepted_bodyJump {m : Mark} {jump : Span → Stmt} {jumpSpan : Span} {semicolon : Bool}
    (hss : Accepted .statements ts ss) (hm : jump? m = some jump) :
    Accepted (.body true) (ts ++ .of m :: semicolon? semicolon)
      (⟨ss ++ [jump jumpSpan], span⟩ : Body) := by
  have hends : endsStatements (.mark m) ∧ ∀ span span', (jump span).bare = (jump span').bare := by
    unfold jump? at hm
    split at hm <;> cases hm <;> exact ⟨rfl, fun _ _ => rfl⟩
  have hjump (n : Nat) : Accepts n (Before (· == .mark .closeBrace)) (.of m :: semicolon? semicolon)
      (Parser.jump jump) fun last => Stmt.bareAll last = Stmt.bareAll [jump jumpSpan] := by
    refine .quiet quiet_here fun start => .word (Nat.le_succ n) ?_
    refine .quiet (quiet_finish _) fun span => ?_
    refine (accepts_skipSemicolon semicolon fun rest hrest => ?_).goOn (fun _ _ => .pure ?_)
      fun _ h => h
    · rw [eq_of_beq hrest]
      decide
    · simp [Stmt.bareAll, hends.2 span jumpSpan]
  refine fun n => .quiet (quiet_enter _) fun _ => .quiet quiet_here fun start => ?_
  refine (hss n n (Nat.le_refl n)).seq (fun ss' hss' => ?_) fun _ _ => hends.1
  refine .goOn (P := fun last => Stmt.bareAll last = Stmt.bareAll [jump jumpSpan])
    (B := Before (· == .mark .closeBrace)) (.choose ?_) (fun last hlast => ?_) fun _ h => h
  · unfold jump? at hm
    split at hm <;> cases hm <;> exact hjump n
  · exact .spanned fun span => by simp [Body.bare, Stmt.bareAll_append, hss', hlast]

theorem accepted_block {conditional : Bool} (h : Accepted (.body conditional) ts b) :
    Accepted (.block conditional) (.of .openBrace :: (ts ++ [.of .closeBrace])) b := by
  refine fun n => .mark (Nat.le_succ n) ((h n).seq (fun b' hb => ?_) fun _ _ => rfl)
  exact .mark (Nat.le_succ n) (.pure hb)

theorem accepted_braced (h : Accepted (.block false) ts b)
    (hts : ∃ l us, ts = l :: us ∧ l.kind = .mark .openBrace) : Accepted .main ts b := by
  obtain ⟨l, us, rfl, hl⟩ := hts
  exact fun n => .test hl (h n)

theorem accepted_single (h : Accepted .statement ts s)
    (hts : ∃ l us, ts = l :: us ∧ startsStatement l.kind) :
    Accepted .main (ts ++ [.of .semicolon]) (⟨[s], span⟩ : Body) := by
  obtain ⟨l, us, rfl, hl⟩ := hts
  refine fun n => .skip (fun rest _ hk => ?_) (.quiet quiet_here fun start => .choose ?_)
  · rw [List.cons_append, List.cons_append, front] at hk
    rw [hk] at hl
    cases hl
  · rw [hl, if_pos rfl]
    have hsemicolon (s' : Stmt) (hs : s'.bare = s.bare) (start : Position) :
        Accepts n anything [.of .semicolon] (do
            expect Mark.semicolon
            pure ⟨[s'], ← finish start⟩) fun b : Body => b.bare = Body.bare ⟨[s], span⟩ :=
      .mark (Nat.le_succ n) (.spanned fun span => by simp [Body.bare, Stmt.bareAll, hs])
    exact (h n).seq (fun s' hs => hsemicolon s' hs start) fun rest _ => ⟨rfl, fun _ => .inl rfl⟩

end Blocks

section Definitions

variable {n : Nat} {ts us : List Lexeme} {idents : List Ident} {b : Body} {span : Span}

theorem accepted_oneName (ident : Ident) : Accepted .names [.identifier ident.name] [ident] := by
  intro n
  cases n with
  | zero => exact .zero
  | succ n =>
    refine .ident (Nat.le_succ _) fun ident' hident => .skip (fun rest hrest => ?_) (.pure ?_)
    · simpa [Before] using hrest
    · simp [Ident.bare_eq hident]

theorem accepted_moreNames {ident : Ident} (h : Accepted .names ts idents) :
    Accepted .names (.identifier ident.name :: .of .comma :: ts) (ident :: idents) := by
  intro n
  cases n with
  | zero => exact .zero
  | succ n =>
    refine .ident (Nat.le_refl _) fun ident' hident => .test rfl (.word (Nat.le_succ _) ?_)
    refine (h n).goOn (fun idents' hidents => .pure ?_) fun _ h => h
    simp [Ident.bare_eq hident, hidents]

theorem accepted_noParameters : Accepted .parameters [] [] :=
  fun _ => .skip (fun rest hrest => by simpa [Before] using hrest) (.pure rfl)

theorem accepted_emptyParameters : Accepted .parameters [.of .openParen, .of .closeParen] [] := by
  intro n
  refine .test rfl ?_
  rw [parameters_eq]
  have hnone : Accepts n (Before (· == .mark .closeParen)) []
      (at? .identifier >>= fun b => if b then commaList expectName n else pure [])
      fun idents => idents = [] := by
    refine .skip (fun rest hrest => ?_) (.pure rfl)
    rw [List.nil_append, eq_of_beq hrest]
    decide
  refine .mark (Nat.le_succ n) (hnone.seq ?_ fun _ _ => rfl)
  rintro _ rfl
  exact .mark (Nat.le_succ n) (.pure rfl)

theorem accepted_parameters (h : Accepted .names ts idents)
    (hts : ∃ l us, ts = l :: us ∧ l.kind = .identifier) :
    Accepted .parameters (.of .openParen :: (ts ++ [.of .closeParen])) idents := by
  obtain ⟨l, us, rfl, hl⟩ := hts
  intro n
  refine .test rfl ?_
  rw [parameters_eq]
  refine .mark (Nat.le_succ n) (.seq (B := Before (· == .mark .closeParen))
    (P := fun idents' => idents'.map Ident.bare = idents.map Ident.bare) (.test hl ?_) ?_
    fun _ _ => rfl)
  · refine (h n).followed fun rest hrest => ?_
    rw [Before, eq_of_beq hrest]
    rfl
  · exact fun idents' hidents => .mark (Nat.le_succ n) (.pure hidents)

theorem accepted_definition {ident : Ident} (hparams : Accepted .parameters ts idents)
    (hb : Accepted .main us b) :
    Accepted .definition (.of .define :: .identifier ident.name :: (ts ++ .of .arrow :: us))
      (⟨ident, idents, b, span⟩ : FuncDef) := by
  intro n
  rw [definition_eq]
  refine .quiet (quiet_enter _) fun _ => .quiet quiet_here fun start => .mark (Nat.le_succ n) ?_
  refine .ident (Nat.le_succ n) fun ident' hident => (hparams n).seq (fun params' hp => ?_)
    fun _ _ => rfl
  refine .mark (Nat.le_succ n) ((hb n).goOn (fun b' hb' => .spanned fun span => ?_) fun _ h => h)
  simp [FuncDef.bare, Ident.bare_eq hident, hp, Body.bare?, hb']

theorem accepted_noDefinitions : Accepted .definitions [] [] := by
  intro n k _
  cases k with
  | zero => exact .zero
  | succ k => exact .skip (fun rest hrest => by simpa [Before] using hrest) (.pure rfl)

theorem accepted_definitions {f : FuncDef} {fs : List FuncDef} (hf : Accepted .definition ts f)
    (hfs : Accepted .definitions us fs)
    (hts : ∃ l vs, ts = l :: vs ∧ l.kind = .mark .define) :
    Accepted .definitions (ts ++ us) (f :: fs) := by
  obtain ⟨l, vs, rfl, hl⟩ := hts
  intro n k hk
  cases k with
  | zero => exact .zero
  | succ k =>
    refine .test hl (((hf n).within hk).bind (m := k) (fun f' hf' => ?_) (fun _ _ => trivial) ?_)
    · refine (hfs n k (Nat.le_of_succ_le hk)).goOn (fun fs' hfs' => .pure ?_) fun _ h => h
      simp [hf', hfs']
    · simp

end Definitions

/-- What is derived is found again by the productions, category by category. -/
theorem accepted_of_derives {c : Category} {ts : List Lexeme} {t : c.Tree}
    (h : Derives .strict c ts t) : Accepted c ts t := by
  induction h with
  | int | float | string | yes | no => exact accepted_leaf (fun _ => rfl) fun _ => rfl
  | name ident => exact accepted_name ident
  | group _ _ ih => exact accepted_group ih
  | unary _ _ hm _ ih => exact accepted_unary hm ih
  | element _ _ _ ih => exact accepted_element ih
  | charOf _ _ ih | codeOf _ _ ih | length _ _ ih =>
    exact accepted_conversion (fun _ => rfl) (fun e' _ he => by simp [Expr.bare, he]) ih
  | atEnd file span =>
    refine accepts_factor fun n => accepts_fileVerb fun file' span hfile => ?_
    simp [Expr.bare, hfile]
  | action _ ih => exact fun n => (ih.1 n).followed fun _ _ => trivial
  | call _ _ _ ih => exact accepted_call ih
  | input prompt span => exact accepted_input prompt span
  | readAll file span => exact accepted_readAll file span
  | readSome _ _ _ ih => exact accepted_readSome ih
  | readComma h => cases h
  | readLine file span => exact accepted_readLine file span
  | ofFactor _ ih => exact accepted_product_first ih
  | multiply _ _ _ hm _ ihl ihr => exact accepted_product_more ihl hm ihr
  | ofProduct _ ih => exact accepted_sum_first ih
  | add _ _ _ hm _ ihl ihr => exact accepted_sum_more ihl hm ihr
  | ofSum h ih => exact accepted_expr_sum ih (h.opens _ rfl)
  | compare _ _ h hm _ ihl ihr => exact accepted_expr_compare ihl hm ihr (h.opens _ rfl)
  | oneItem _ ih => exact .one ih
  | moreItems _ _ ih ihs => exact .more ih ihs
  | noArguments => exact ⟨[], rfl, .inl ⟨rfl, rfl⟩⟩
  | arguments _ ih => exact ⟨_, rfl, .inr ih⟩
  | noElements => exact .inl ⟨rfl, rfl⟩
  | elements _ ih => exact .inr ih
  | elementsComma h => cases h
  | giveBackNone => exact accepted_giveBackNone
  | giveBack _ h ih => exact accepted_giveBack ih (h.mark_not_mem (.inl rfl) rfl)
  | assign _ _ _ ih => exact accepted_assign ih
  | advance _ _ _ hm => exact accepted_advance hm
  | act _ ih => exact accepted_act ih
  | allocate _ _ _ ih => exact accepted_allocate ih
  | collect _ _ _ ih => exact accepted_collect ih
  | openFile _ _ _ htwo ih => exact accepted_openFile ih (htwo rfl)
  | split _ _ _ htwo ih => exact accepted_split ih (htwo rfl)
  | update _ _ _ _ _ ihi ihv => exact accepted_update ihi ihv
  | loop _ _ _ ih ihb => exact accepted_loop ih ihb
  | range _ _ _ _ _ ihf ihl ihb => exact accepted_range ihf ihl ihb
  | when _ _ _ _ h ih ihb iho ihl => exact accepted_when ih ihb iho ihl h.otherwise_opens
  | print _ _ _ ih => exact accepted_print ih
  | closeFile => exact accepted_closeFile
  | write _ _ _ _ ih => exact accepted_write ih
  | noOrWhens => exact accepted_noOrWhens
  | orWhens _ _ _ _ ih ihb iho => exact accepted_orWhens ih ihb iho
  | noOtherwise => exact accepted_noOtherwise
  | otherwise _ _ ih => exact accepted_otherwise ih
  | noStatements => exact accepted_noStatements
  | statements _ h hs hseparated ih ihs =>
    exact accepted_statements ih ihs (h.opens _ rfl) hs.statements_opens (hseparated rfl)
  | body _ _ _ ih => exact accepted_body ih
  | bodyJump _ _ _ _ hm ih => exact accepted_bodyJump ih hm
  | block _ ih => exact accepted_block ih
  | braced h ih =>
    obtain ⟨l, us, hts, hl⟩ := h.opens _ rfl
    exact accepted_braced ih ⟨l, us, hts, eq_of_beq hl⟩
  | single _ h ih => exact accepted_single ih (h.opens _ rfl)
  | oneName ident => exact accepted_oneName ident
  | moreNames _ _ ih => exact accepted_moreNames ih
  | noParameters => exact accepted_noParameters
  | emptyParameters => exact accepted_emptyParameters
  | parameters h ih =>
    refine accepted_parameters ih ?_
    cases h <;> exact ⟨_, _, rfl, rfl⟩
  | definition _ _ _ _ ihp ihb => exact accepted_definition ihp ihb
  | noDefinitions => exact accepted_noDefinitions
  | definitions h _ ih ihs =>
    obtain ⟨l, us, hts, hl⟩ := h.opens _ rfl
    exact accepted_definitions ih ihs ⟨l, us, hts, eq_of_beq hl⟩
  | noProgram | program => trivial

theorem accepts_expectAll {n : Nat} {A : List Lexeme → Prop} (marks : List Mark) :
    Accepts n A (marks.map .of) (expectAll marks) fun _ => True := by
  induction marks with
  | nil => exact .pure trivial
  | cons m marks ih => exact .mark (Nat.le_succ n) ih

/-- After the end of input comes the end of input again. -/
theorem accepts_end {n : Nat} : Accepts n (· = []) [] (expect .endOfInput) fun _ => True := by
  rintro s _ hs rfl -
  rw [List.nil_append] at hs
  have hk : s.current.kind = .endOfInput := hs.kind
  obtain ⟨ha, hc⟩ := hs.proper.ended hk
  cases he : s.ending with
  | error f => simp [State.clean, he] at hc
  | ok t =>
    have ht := hs.proper.ending t he
    let s' : State :=
      { s.noteScan t with current := t, peeked := false, lastStop := s.current.stop }
    have hahead : s'.ahead = [] := by rw [← ha]; exact noteScan_ahead s t
    have hending : s'.ending = .ok t := by rw [← he]; exact noteScan_ending s t
    have hclean : s'.clean := by rw [State.clean, hending]
    have hproper : s'.Proper := by
      refine ⟨by rw [hahead]; rintro _ ⟨⟩, fun u hu => ?_, fun _ => ⟨hahead, hclean⟩⟩
      cases hending.symm.trans hu
      exact ht
    refine ⟨(), s', ?_, ⟨hproper, hclean, lexemes_eq_nil ht⟩, trivial⟩
    rw [expect, Step.bind_apply, at?, Step.gets]
    dsimp only
    rw [hk, if_pos (by rfl), advance, ha, he]

/-- The tokens of a program, and nothing else, are parsed as that program. -/
theorem accepts_fetchedProgram {n : Nat} {ts : List Lexeme} {p : Program}
    (h : Derives .strict .program ts p) :
    Accepts n (· = []) ts (fetchedProgram n) fun p' => p'.bare = p.bare := by
  refine .quiet quiet_here fun start => ?_
  cases h with
  | noProgram span =>
    refine .hit (fun rest hrest => ?_) (.pure rfl)
    rw [hrest]
    rfl
  | program span hfs hb =>
    rename_i ts us fs b
    have hmain : ∀ rest : List Lexeme, (front (ts ++ .of .main :: rest)).kind ≠ .endOfInput := by
      intro rest
      obtain rfl | ⟨l, vs, rfl, hl⟩ := hfs.definitions_opens
      · rintro ⟨⟩
      · rw [List.cons_append, front, hl]
        rintro ⟨⟩
    refine .skip (fun rest _ => ?_) (.quiet (quiet_enter _) fun _ => ?_)
    · rw [List.append_assoc]
      exact hmain _
    have hmarks := accepts_expectAll (n := n) (A := anything)
      [.main, .openParen, .closeParen, .arrow]
    refine (accepted_of_derives hfs n n (Nat.le_refl n)).seq (fun fs' hfs' => ?_) fun _ _ => rfl
    refine hmarks.seq (fun _ _ => ?_) fun _ _ => trivial
    refine (accepted_of_derives hb n).goOn (fun b' hb' => ?_) fun _ _ => trivial
    refine accepts_end.goOn (fun _ _ => .spanned fun span => ?_) fun _ h => h
    simp [Program.bare, Body.bare?, hfs', hb']

/-- Fetching the first token of a text without a fault. -/
theorem ready_of_tokenize {limits : Token.Limits} {text : Bytes} {e : Token}
    (hend : (Token.tokenize limits text).ending = .ok e) :
    ∃ s, advance (.ofScan (Token.tokenize limits text)) = .ok () s ∧
      Ready s (lexemesOf limits text) := by
  obtain ⟨s, hfetch, hs, hleft, hending⟩ | ⟨-, f, hf, -⟩ :=
    fetch (properScan_scanAll limits ((Token.Cursor.ofText text).rest.length + 1) (.ofText text))
  · refine ⟨s, hfetch, hs, ?_, by rw [State.lexemes, hleft]; rfl⟩
    rw [State.clean, hending]
    rw [Token.tokenize] at hend
    rw [hend]
  · rw [Token.tokenize] at hend
    cases hf.symm.trans hend

/-- A text whose tokens are derived is parsed, into the tree that they stand for. -/
theorem parseProgram_of_derives {limits : Token.Limits} {text : Bytes} {p : Program} {e : Token}
    (hend : (Token.tokenize limits text).ending = .ok e)
    (h : Derives .strict .program (lexemesOf limits text) p) :
    ∃ p' s, parseProgram limits text = .ok p' s ∧ p'.bare = p.bare := by
  obtain ⟨s₁, hfetch, hs₁⟩ := ready_of_tokenize hend
  rw [← List.append_nil (lexemesOf limits text)] at hs₁
  obtain ⟨p', s', hprogram, -, hp⟩ := accepts_fetchedProgram
    (n := (Token.tokenize limits text).tokens.length + 2) h s₁ [] hs₁ rfl (by simp [lexemesOf])
  refine ⟨p', s', ?_, hp⟩
  have hrun : parseProgram limits text = (advance >>= fun _ =>
      fetchedProgram ((Token.tokenize limits text).tokens.length + 2))
        (.ofScan (Token.tokenize limits text)) := rfl
  rw [hrun, Step.bind_apply, hfetch]
  exact hprogram

/-- Whether a token of the given kind can only begin an expression. -/
def startsValue (k : Kind) : Bool :=
  startsExpression k && k ≠ .identifier && !startsStatement k

theorem accepts_concludeExpr {n : Nat} (e : Expr) :
    Accepts n (· = []) [] (conclude (.expr e)) fun node => node = some (.expr e) := by
  refine (accepts_skipSemicolon false fun rest hrest => ?_).goOn (fun _ _ => ?_) fun _ h => h
  · rw [hrest]
    decide
  · refine .hit (fun rest hrest => ?_) (.pure rfl)
    rw [hrest]
    rfl

/-- The tokens of an expression that cannot be those of a statement, and nothing else, are entered
as that expression. -/
theorem accepts_entry {n : Nat} {l : Lexeme} {us : List Lexeme} {e : Expr}
    (h : AcceptedExpr (l :: us) e) (hl : startsValue l.kind) :
    Accepts n (· = []) (l :: us) (do
        if ← at? .endOfInput then pure none
        else
          enter "<Interactive>"
          entryNode n >>= conclude)
      fun node => ∃ e', node = some (.expr e') ∧ e'.bare = e.bare := by
  have hexpr : Accepts n (· = []) (l :: us) (.expr <$> expression n >>= conclude) fun node =>
      ∃ e', node = some (.expr e') ∧ e'.bare = e.bare := by
    rw [bind_map_left]
    refine (h.accepts n).goOn (fun e' he => ?_) fun rest hrest => by rw [Before, hrest]; rfl
    exact (accepts_concludeExpr e').mono fun node hnode => ⟨e', hnode, he⟩
  refine .skip (fun rest _ hk => ?_) (.quiet (quiet_enter _) fun _ => ?_)
  · rw [List.cons_append, front] at hk
    rw [hk] at hl
    cases hl
  · rw [entryNode_eq]
    refine .choose ?_
    generalize l.kind = k at hl
    cases k with
    | mark m => cases m <;> first | exact hexpr | cases hl
    | identifier => cases hl
    | _ => exact hexpr

/-- A text whose tokens are those of an expression, and cannot be those of a statement, is parsed
as that expression. -/
theorem parseEntry_of_derives {limits : Token.Limits} {text : Bytes} {e : Expr} {t : Token}
    (hend : (Token.tokenize limits text).ending = .ok t)
    (h : Derives .strict .expr (lexemesOf limits text) e)
    (hl : startsValue (front (lexemesOf limits text)).kind) :
    ∃ e' s, parseEntry limits text = .ok (some (.expr e')) s ∧ e'.bare = e.bare := by
  obtain ⟨s₁, hfetch, hs₁⟩ := ready_of_tokenize hend
  obtain ⟨l, us, hls, -⟩ := h.opens _ rfl
  have hlen : (l :: us).length = (Token.tokenize limits text).tokens.length := by
    rw [← hls, lexemesOf, List.length_map]
  rw [hls] at h hl hs₁
  rw [← List.append_nil (l :: us)] at hs₁
  obtain ⟨node, s', hnode, -, e', rfl, he⟩ := accepts_entry
    (n := (Token.tokenize limits text).tokens.length + 2) (accepted_of_derives h) hl s₁ [] hs₁ rfl
    (by rw [List.append_nil, hlen]; omega)
  refine ⟨e', s', ?_, he⟩
  rw [parseEntry, run, entry_eq, Step.bind_apply, hfetch]
  exact hnode

/-- The grammar as it is documented. -/
def Dialect.documented : Dialect := ⟨false, false, false⟩

/-- Whether a text is scanned to its end. -/
def scans (limits : Token.Limits) (text : Bytes) : Bool := (Token.tokenize limits text).ending.isOk

/-- Whether a text is a program. -/
def parses (limits : Token.Limits) (text : Bytes) : Bool :=
  match parseProgram limits text with
  | .ok _ _ => true
  | .error _ _ | .exhausted => false

theorem parses_iff {limits : Token.Limits} {text : Bytes} :
    parses limits text ↔ ∃ p s, parseProgram limits text = .ok p s := by
  unfold parses
  cases parseProgram limits text with
  | ok p s => exact ⟨fun _ => ⟨p, s, rfl⟩, fun _ => rfl⟩
  | error d s => exact ⟨fun h => absurd h Bool.false_ne_true, by rintro ⟨_, _, ⟨⟩⟩⟩
  | exhausted => exact ⟨fun h => absurd h Bool.false_ne_true, by rintro ⟨_, _, ⟨⟩⟩⟩

/-- The tree that an entry is parsed as. -/
def entryOf? (limits : Token.Limits) (text : Bytes) : Option Node :=
  match parseEntry limits text with
  | .ok node _ => node
  | .error _ _ | .exhausted => none

theorem entryOf?_eq_some {limits : Token.Limits} {text : Bytes} {node : Node} :
    entryOf? limits text = some node ↔ ∃ s, parseEntry limits text = .ok (some node) s := by
  unfold entryOf?
  cases parseEntry limits text with
  | ok node' s => simp
  | error d s => simp
  | exhausted => simp

theorem scans_iff {limits : Token.Limits} {text : Bytes} :
    scans limits text ↔ ∃ e, (Token.tokenize limits text).ending = .ok e := by
  unfold scans
  cases (Token.tokenize limits text).ending with
  | ok e => exact ⟨fun _ => ⟨e, rfl⟩, fun _ => rfl⟩
  | error f => exact ⟨fun h => absurd h Bool.false_ne_true, by rintro ⟨_, ⟨⟩⟩⟩

/-- What is parsed lies between two readings of the grammar. In both a file is opened, and a text
split, with two arguments. -/
theorem parseProgram_between (limits : Token.Limits) (text : Bytes) (h : scans limits text) :
    (∀ p s, parseProgram limits text = .ok p s →
        Derives .loose .program (lexemesOf limits text) p) ∧
      ∀ p, Derives .strict .program (lexemesOf limits text) p →
        ∃ p' s, parseProgram limits text = .ok p' s ∧ p'.bare = p.bare := by
  obtain ⟨e, hend⟩ := scans_iff.mp h
  refine ⟨fun p s hparse => ?_, fun p hp => ?_⟩
  · exact derives_of_parseProgram hparse
  · exact parseProgram_of_derives hend hp

/-- A file that is opened, and a return without a value. -/
theorem parseProgram_between_open :
    let text : Bytes := "kawaii log(x) => f => f_open(x, \"w\"); uWu_nyaa() => modoru;"
    scans {} text ∧ ∃ p, Derives .loose .program (lexemesOf {} text) p := by
  intro text
  have hscans : scans {} text := by decide +kernel
  obtain ⟨p, s, hparse⟩ := parses_iff.mp (show parses {} text by decide +kernel)
  exact ⟨hscans, p, (parseProgram_between {} text hscans).1 p s hparse⟩

/-- One argument does not open a file, although the documented grammar would allow it. -/
theorem openFile_single :
    let text : Bytes := "uWu_nyaa ( ) => f => f_open ( \"a\" ) ;"
    scans {} text ∧ (∃ p, Derives .documented .program (lexemesOf {} text) p) ∧
      ¬ ∃ p s, parseProgram {} text = .ok p s := by
  intro text
  let arguments : List Lexeme := [.of .openParen, .string "a", .of .closeParen]
  let ls : List Lexeme := [.of .main, .of .openParen, .of .closeParen, .of .arrow,
    .identifier "f", .of .arrow, .of .openFile] ++ arguments ++ [.of .semicolon]
  have htext : Bytes.ofString (String.ofList (Token.written ls)) = text := by decide +kernel
  have hwritable : ∀ l ∈ ls, l.Writable {} := by decide +kernel
  obtain ⟨hlexemes, hend⟩ := Token.tokenize_written hwritable
  rw [htext] at hlexemes hend
  have harguments : Derives .documented .arguments arguments [Expr.string "a" {}] :=
    .arguments (.oneItem (.ofSum (.ofProduct (.ofFactor (.string "a" {})))))
  have hopen := Derives.openFile ⟨"f", {}⟩ {} harguments (by rintro ⟨⟩)
  have hprogram := Derives.program {} .noDefinitions (.single {} hopen)
  have hrejected : ¬ parses {} text := by decide +kernel
  rw [lexemesOf, hlexemes]
  exact ⟨scans_iff.mpr hend, ⟨_, hprogram⟩, fun h => hrejected (parses_iff.mpr h)⟩

end Kotoba.Syntax
