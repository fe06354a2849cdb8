import Kotoba.Proofs.Syntax.Accepts
import Kotoba.Proofs.Syntax.Bare

/-! On the tokens of an expression, the productions of expressions find it again. -/
namespace Kotoba.Syntax

open Token (Lexeme Kind)
open Kotoba.Syntax.Parser

/-- The tokens of some expressions with commas between them, each of which satisfies `P`. -/
inductive Listed (P : List Lexeme → Expr → Prop) : List Lexeme → List Expr → Prop
  | one {ts : List Lexeme} {e : Expr} (item : P ts e) : Listed P ts [e]
  | more {ts us : List Lexeme} {e : Expr} {es : List Expr} (item : P ts e)
    (rest : Listed P us es) : Listed P (ts ++ .of .comma :: us) (e :: es)

/-- The tokens of an expression, which is found in them again. -/
structure AcceptedExpr (ts : List Lexeme) (e : Expr) : Prop where
  accepts : ∀ n, Accepts n (Before endsComparison) ts (expression n) fun e' => e'.bare = e.bare
  opens : ∃ l us, ts = l :: us ∧ startsExpression l.kind

/-- The tokens of a category and their tree: what the productions of that category make of the
tokens is the tree, up to spans. -/
def Accepted : (c : Category) → List Lexeme → c.Tree → Prop
  | .factor, ts, e => ∀ n, Accepts n (Before endsFactor) ts (factor n) fun e' => e'.bare = e.bare
  | .product, ts, e => ∀ n, Reaches n (Before endsFactor) ts (product (factor n) n)
      (chain .multiplicative multiplicativeOp? (factor n)) fun e' => e'.bare = e.bare
  | .sum, ts, e => ∀ n, Reaches n (Before endsProduct) ts (sumExpr n)
      (chain .additive additiveOp? (product (factor n) n)) fun e' => e'.bare = e.bare
  | .expr, ts, e => AcceptedExpr ts e
  | .action, ts, e => (∀ n, Accepts n anything ts (factor n) fun e' => e'.bare = e.bare) ∧
      ∀ n, Accepts n anything ts (statement n) fun s => s.bare = (Stmt.expr e).bare
  | .items, ts, es => Listed AcceptedExpr ts es
  | .arguments, ts, es => ∃ us, ts = .of .openParen :: (us ++ [.of .closeParen]) ∧
      (us = [] ∧ es = [] ∨ Listed AcceptedExpr us es)
  | .elements, ts, es => ts = [] ∧ es = [] ∨ Listed AcceptedExpr ts es
  | .statement, ts, s => ∀ n, Accepts n (fun rest => Before endsStatement rest ∧ Separated ts rest)
      ts (statement n) fun s' => s'.bare = s.bare
  | .statements, ts, ss => ∀ n k, k ≤ n → Accepts k (Before endsStatements) ts
      (statements (statement n) k) fun ss' => Stmt.bareAll ss' = Stmt.bareAll ss
  | .body conditional, ts, b => ∀ n, Accepts n (Before (· == .mark .closeBrace)) ts
      (body (statement n) n conditional) fun b' => b'.bare = b.bare
  | .block conditional, ts, b => ∀ n, Accepts n anything ts
      (braced (statement n) n conditional) fun b' => b'.bare = b.bare
  | .orWhens, ts, others => ∀ n k, k ≤ n → Accepts k (Before (· != .mark .orWhen)) ts
      (orWhens (expression n) (braced (statement n) n true) k) fun others' =>
        OrWhen.bareAll others' = OrWhen.bareAll others
  | .otherwise, ts, last => ∀ n, Accepts n (Before (· != .mark .otherwise)) ts
      (otherwise (braced (statement n) n true)) fun last' =>
        Otherwise.bare? last' = Otherwise.bare? last
  | .main, ts, b => ∀ n, Accepts n anything ts (bracedOrSingle (statement n) n) fun b' =>
      b'.bare = b.bare
  | .names, ts, idents => ∀ n, Accepts n (Before (· != .mark .comma)) ts
      (commaList expectName n) fun idents' => idents'.map Ident.bare = idents.map Ident.bare
  | .parameters, ts, idents => ∀ n, Accepts n (Before (· != .mark .openParen)) ts
      (optionalParameters n) fun idents' => idents'.map Ident.bare = idents.map Ident.bare
  | .definition, ts, f => ∀ n, Accepts n anything ts (definition n) fun f' => f'.bare = f.bare
  | .definitions, ts, fs => ∀ n k, k ≤ n → Accepts k (Before (· != .mark .define)) ts
      (definitions (definition n) k) fun fs' => fs'.map FuncDef.bare = fs.map FuncDef.bare
  | .program, _, _ => True

theorem Ident.bare_eq {i j : Ident} (h : i.name = j.name) : i.bare = j.bare := by
  rw [Ident.bare, Ident.bare, h]

theorem Operator.bare_eq {o p : Operator} (h : o.op = p.op) : o.bare = p.bare := by
  rw [Operator.bare, Operator.bare, h]

section Layers

variable {m : Mark} {op : Op} {ts us : List Lexeme} {l r e : Expr} {opSpan span : Span}

theorem bare_binary {layer : Layer} {l' r' : Expr} {o : Operator} {span' : Span}
    (hl : l'.bare = l.bare) (ho : o.op = op) (hr : r'.bare = r.bare) :
    (Expr.binary layer l' o r' span').bare = (Expr.binary layer l ⟨op, opSpan⟩ r span).bare := by
  rw [Expr.bare, Expr.bare, hl, hr, Operator.bare_eq (p := ⟨op, opSpan⟩) ho]

theorem accepted_product_first (h : Accepted .factor ts e) : Accepted .product ts e :=
  fun n => .first (h n)

theorem accepted_product_more (hl : Accepted .product ts l)
    (hm : multiplicativeOp? (.mark m) = some op) (hr : Accepted .factor us r) :
    Accepted .product (ts ++ .of m :: us) (Expr.binary .multiplicative l ⟨op, opSpan⟩ r span) := by
  refine fun n => (hl n).more hm (hr n) (fun _ => endsFactor_of_op ?_) fun _ _ _ _ => bare_binary
  exact Option.isSome_of_mem hm

theorem Accepted.product (h : Accepted .product ts e) (n : Nat) :
    Accepts n (Before endsProduct) ts (Parser.product (factor n) n) fun e' => e'.bare = e.bare := by
  refine (h n).done fun rest hrest => ?_
  simpa [Before, endsProduct] using hrest

theorem accepted_sum_first (h : Accepted .product ts e) : Accepted .sum ts e :=
  fun n => .first (h.product n)

theorem accepted_sum_more (hl : Accepted .sum ts l) (hm : additiveOp? (.mark m) = some op)
    (hr : Accepted .product us r) :
    Accepted .sum (ts ++ .of m :: us) (Expr.binary .additive l ⟨op, opSpan⟩ r span) := by
  refine fun n => (hl n).more hm (hr.product n) (fun _ => endsProduct_of_op ?_) fun _ _ _ _ =>
    bare_binary
  exact Option.isSome_of_mem hm

theorem Accepted.sum (h : Accepted .sum ts e) (n : Nat) :
    Accepts n (Before endsSum) ts (sumExpr n) fun e' => e'.bare = e.bare := by
  refine (h n).done fun rest hrest => ?_
  simpa [Before, endsSum] using hrest

theorem accepted_expr_sum (h : Accepted .sum ts e)
    (ho : ∃ l us, ts = l :: us ∧ startsExpression l.kind) : Accepted .expr ts e := by
  refine ⟨fun n => .quiet quiet_here fun start => ?_, ho⟩
  refine (h.sum n).goOn (fun e' he => ?_) fun rest hrest => ?_
  · refine .kind (fun rest hrest => ?_) (.pure he)
    have hop : relationalOp? (front rest).kind = none := by
      simp only [Before, endsComparison, Bool.and_eq_true] at hrest
      simpa using hrest.2
    rw [List.nil_append, hop]
  · simp only [Before, endsComparison, Bool.and_eq_true] at hrest
    exact hrest.1

theorem accepted_expr_compare (hl : Accepted .sum ts l) (hm : relationalOp? (.mark m) = some op)
    (hr : Accepted .sum us r) (ho : ∃ l us, ts = l :: us ∧ startsExpression l.kind) :
    Accepted .expr (ts ++ .of m :: us) (Expr.binary .relational l ⟨op, opSpan⟩ r span) := by
  obtain ⟨first, vs, rfl, hfirst⟩ := ho
  refine ⟨fun n => .quiet quiet_here fun start => ?_, first, _, rfl, hfirst⟩
  refine (hl.sum n).seq (fun l' hl' => ?_) fun rest _ => endsSum_of_op (Option.isSome_of_mem hm)
  refine .choose ?_
  rw [Lexeme.kind, hm]
  refine .operator (Nat.le_succ n) fun o ho => ?_
  refine (hr.sum n).goOn (fun r' hr' => ?_) fun rest hrest => ?_
  · exact .spanned fun span => bare_binary hl' ho hr'
  · simp only [Before, endsComparison, Bool.and_eq_true] at hrest
    exact hrest.1

end Layers

section Lists

variable {n k : Nat} {ts : List Lexeme} {es : List Expr}

theorem Listed.opens (h : Listed AcceptedExpr ts es) :
    ∃ l us, ts = l :: us ∧ startsExpression l.kind := by
  cases h with
  | one he => exact he.opens
  | more he _ =>
    obtain ⟨l, us, rfl, hl⟩ := he.opens
    exact ⟨l, _, rfl, hl⟩

theorem accepts_commaList (h : Listed AcceptedExpr ts es) (hk : k ≤ n) :
    Accepts k (Before (· == .mark .closeParen)) ts (commaList (expression n) k) fun es' =>
      Expr.bareAll es' = Expr.bareAll es := by
  induction h generalizing k with
  | one he =>
    cases k with
    | zero => exact .zero
    | succ k =>
      refine ((he.accepts n).within hk).goOn (fun e' he' => ?_) fun rest hrest => ?_
      · refine .skip (fun rest hrest => ?_) (.pure (by simp [Expr.bareAll, he']))
        rw [List.nil_append, eq_of_beq hrest]
        decide
      · rw [Before, eq_of_beq hrest]
        rfl
  | more he _ ih =>
    cases k with
    | zero => exact .zero
    | succ k =>
      refine ((he.accepts n).within hk).seq (fun e' he' => ?_) fun rest _ => rfl
      refine .test rfl (.word (Nat.le_refl _) ((ih (Nat.le_of_succ_le hk)).goOn ?_ fun _ h => h))
      exact fun es' hes' => .pure (by simp [Expr.bareAll, he', hes'])

theorem accepts_elements (h : Listed AcceptedExpr ts es) (hk : k ≤ n) :
    Accepts k (Before (· == .mark .closeBrace)) ts (Parser.elements (expression n) k) fun es' =>
      Expr.bareAll es' = Expr.bareAll es := by
  have hbrace {l : Lexeme} (hl : startsExpression l.kind) : l.kind ≠ .mark .closeBrace := by
    intro h
    rw [h] at hl
    cases hl
  induction h generalizing k with
  | one he =>
    cases k with
    | zero => exact .zero
    | succ k =>
      obtain ⟨l, us, rfl, hl⟩ := he.opens
      refine .skip (fun rest _ => hbrace hl) ?_
      refine ((he.accepts n).within hk).goOn (fun e' he' => ?_) fun rest hrest => ?_
      · refine .skip (fun rest hrest => ?_) (.pure (by simp [Expr.bareAll, he']))
        rw [List.nil_append, eq_of_beq hrest]
        decide
      · rw [Before, eq_of_beq hrest]
        rfl
  | more he _ ih =>
    cases k with
    | zero => exact .zero
    | succ k =>
      obtain ⟨l, us, rfl, hl⟩ := he.opens
      refine .skip (fun rest _ => hbrace hl) ?_
      refine ((he.accepts n).within hk).seq (fun e' he' => ?_) fun rest _ => rfl
      refine .test rfl (.word (Nat.le_refl _) ((ih (Nat.le_of_succ_le hk)).goOn ?_ fun _ h => h))
      exact fun es' hes' => .pure (by simp [Expr.bareAll, he', hes'])

theorem Accepted.arguments (h : Accepted .arguments ts es) (n : Nat) :
    Accepts n anything ts (Parser.arguments (expression n) n) fun es' =>
      Expr.bareAll es' = Expr.bareAll es := by
  obtain ⟨us, rfl, hus⟩ := h
  rw [arguments_eq]
  refine .mark (Nat.le_succ n) (.seq (P := fun es' => Expr.bareAll es' = Expr.bareAll es)
    (B := Before (· == .mark .closeParen)) ?_ (fun es' hes' => ?_) fun _ _ => rfl)
  · obtain ⟨rfl, rfl⟩ | hus := hus
    · refine .kind (fun rest hrest => ?_) (.pure rfl)
      rw [List.nil_append, eq_of_beq hrest]
      rfl
    · obtain ⟨l, vs, rfl, hl⟩ := hus.opens
      refine .choose ?_
      rw [hl, if_pos rfl]
      exact accepts_commaList hus (Nat.le_refl n)
  · exact .mark (Nat.le_succ n) (.pure hes')

theorem Accepted.pair {a b : Expr} (h : Accepted .arguments ts [a, b]) (n : Nat) :
    Accepts n anything ts (Parser.pair (expression n)) fun p =>
      p.1.bare = a.bare ∧ p.2.bare = b.bare := by
  obtain ⟨us, rfl, ⟨-, hes⟩ | hus⟩ := h
  · cases hes
  · cases hus with
    | more ha hb =>
      cases hb with
      | one hb =>
        rw [List.append_assoc, List.cons_append]
        refine .mark (Nat.le_succ n) ((ha.accepts n).seq (fun a' ha' => ?_) fun _ _ => rfl)
        refine .mark (Nat.le_succ n) ((hb.accepts n).seq (fun b' hb' => ?_) fun _ _ => rfl)
        exact .mark (Nat.le_succ n) (.pure ⟨ha', hb'⟩)
      | more _ hnil => cases hnil

end Lists

section Factors

variable {n : Nat} {after : List Lexeme → Prop} {l : Lexeme} {us ts : List Lexeme} {e : Expr}

/-- How a mark is spelled makes no difference for the factor it begins. -/
theorem factorAt_said (e s f : Parser Expr) (n : Nat) (l : Lexeme) :
    factorAt e s f n l l.kind = factorAt e s f n l.said l.said.kind := by
  cases l with
  | mark m _ => cases m <;> rfl
  | _ => rfl

theorem accepts_factor {P : Expr → Prop} (h : ∀ n, Accepts (n + 1) after (l :: us)
      (factorAt (expression n) (sumExpr n) (factor n) n l l.kind) P) (n : Nat) :
    Accepts n after (l :: us) (factor n) P := by
  cases n with
  | zero => exact .zero
  | succ n =>
    rw [factor, factorWith_eq]
    refine .current fun t ht => ?_
    rw [Token.kind, factorAt_said, ht]
    exact h n

theorem accepts_leaf {build : Span → Expr} {P : Expr → Prop} (h : ∀ span, P (build span)) :
    Accepts n after [l] (leaf build) P :=
  .quiet quiet_here fun _ => .word (Nat.le_succ n) (.spanned h)

theorem accepted_leaf {build : Span → Expr}
    (hl : ∀ n, factorAt (expression n) (sumExpr n) (factor n) n l l.kind = leaf build)
    (h : ∀ span, (build span).bare = e.bare) : Accepted .factor [l] e := by
  refine accepts_factor fun n => ?_
  rw [hl n]
  exact accepts_leaf h

theorem accepted_name (ident : Ident) :
    Accepted .factor [.identifier ident.name] (Expr.name ident) := by
  refine accepts_factor fun n => .peek (q := leaf fun span => .name ⟨ident.name, span⟩)
    (fun rest hrest => ?_) (accepts_leaf fun span => rfl)
  · rw [List.nil_append]
    rw [Before] at hrest
    generalize (front rest).kind = k at hrest ⊢
    cases k with
    | mark m => cases m <;> first | rfl | cases hrest
    | _ => rfl

theorem accepted_group {span : Span} (h : AcceptedExpr ts e) :
    Accepted .factor (.of .openParen :: (ts ++ [.of .closeParen])) (Expr.group e span) := by
  refine accepts_factor fun n => .quiet quiet_here fun start => ?_
  refine .inParens (Nat.le_refl _) (h.accepts n) (fun _ => rfl) fun e' he => .spanned fun span => ?_
  rw [Expr.bare, Expr.bare, he]

theorem accepted_unary {m : Mark} {op : Op} {opSpan span : Span} (hm : unaryOp? m = some op)
    (h : Accepted .factor ts e) :
    Accepted .factor (.of m :: ts) (Expr.unary ⟨op, opSpan⟩ e span) := by
  have hfactor (n : Nat) : factorAt (expression n) (sumExpr n) (factor n) n (.of m) (.mark m) =
      negation op (factor n) := by
    unfold unaryOp? at hm
    split at hm <;> cases hm <;> rfl
  refine accepts_factor fun n => ?_
  rw [Lexeme.kind, hfactor]
  refine .quiet quiet_here fun start => .operator (Nat.le_refl _) fun o ho => ?_
  refine (h n).goOn (fun e' he => .spanned fun span => ?_) fun _ h => h
  rw [Expr.bare, Expr.bare, he, Operator.bare_eq (p := ⟨op, opSpan⟩) ho]

theorem accepts_slot {A : List Lexeme → Prop} {array : Ident} (h : Accepted .sum ts e) :
    Accepts (n + 1) A
      (.identifier array.name :: .of .openBracket :: (ts ++ [.of .closeBracket]))
      (slot (sumExpr n)) fun a => a.1.bare = array.bare ∧ a.2.1.bare = e.bare := by
  refine .quiet quiet_here fun start => .ident (Nat.le_refl _) fun array' ha => ?_
  refine .mark (Nat.le_succ n) ((h.sum n).seq (fun e' he => ?_) fun _ _ => rfl)
  exact .mark (Nat.le_succ n) (.spanned fun span => ⟨Ident.bare_eq ha, he⟩)

theorem accepted_element {array : Ident} {span : Span} (h : Accepted .sum ts e) :
    Accepted .factor (.identifier array.name :: .of .openBracket :: (ts ++ [.of .closeBracket]))
      (Expr.element array e span) := by
  refine accepts_factor fun n => .lookAt ((accepts_slot h).goOn ?_ fun _ h => h)
  rintro ⟨array', index, span⟩ ⟨ha, hi⟩
  exact .pure (by simp [Expr.bare, ha, hi])

theorem accepted_conversion {m : Mark} {build : Expr → Span → Expr} {span : Span}
    (hm : ∀ n, factorAt (expression n) (sumExpr n) (factor n) n (.of m) (.mark m) =
      conversion (expression n) build)
    (hbuild : ∀ e' span', e'.bare = e.bare → (build e' span').bare = (build e span).bare)
    (h : AcceptedExpr ts e) :
    Accepted .factor (.of m :: .of .openParen :: (ts ++ [.of .closeParen])) (build e span) := by
  refine accepts_factor fun n => ?_
  rw [Lexeme.kind, hm n]
  refine .quiet quiet_here fun start => .word (Nat.le_refl _) ?_
  exact .inParens (Nat.le_succ n) (h.accepts n) (fun _ => rfl) fun e' he =>
    .spanned fun span' => hbuild e' span' he

theorem accepts_fileVerb {α : Type} {file : Ident} {build : Ident → Span → α} {P : α → Prop}
    (h : ∀ file' span, Ident.bare file' = file.bare → P (build file' span)) :
    Accepts n after [l, .of .openParen, .identifier file.name, .of .closeParen]
      (fileVerb build) P := by
  refine .quiet quiet_here fun start => .word (Nat.le_succ n) ?_
  have hname : Accepts n anything [.identifier file.name] expectName fun file' =>
      file'.name = file.name := .name
  refine hname.inParens (Nat.le_succ n) (fun _ => trivial) fun file' hfile => ?_
  exact .spanned fun span => h file' span (Ident.bare_eq hfile)

end Factors

/-- What does not begin an expression does not make a return look like one with a value. -/
theorem Separated.append {ts us rest : List Lexeme} (h : Separated ts us)
    (hrest : startsExpression (front rest).kind = false) : Separated ts (us ++ rest) := by
  intro hts
  obtain hus | ⟨x, more, rfl⟩ := h hts
  · cases us with
    | nil => exact .inl hrest
    | cons l us => exact .inl hus
  · exact .inr ⟨x, more ++ rest, rfl⟩

/-- The statement that begins with a token of the given kind. -/
def statementAt (expr sum : Parser Expr) (block : Parser Body) (fuel : Nat) : Kind → Parser Stmt
  | .identifier => nameStatement expr sum fuel
  | .mark .giveBack => giveBack expr
  | .mark .loop => loop expr block
  | .mark .range => range expr block
  | .mark .when => conditional expr block fuel
  | .mark .print => print expr fuel false
  | .mark .printLine => print expr fuel true
  | .mark .input => .expr <$> inputLine
  | .mark .closeFile => fileVerb .closeFile
  | .mark .readFile => .expr <$> readFile expr
  | .mark .readLine => .expr <$> fileVerb .readLine
  | .mark .writeFile => writeFile expr false
  | .mark .writeLine => writeFile expr true
  | _ => unexpected ["statement"]

section Actions

variable {n : Nat} {after : List Lexeme → Prop} {l : Lexeme} {us ts : List Lexeme} {e : Expr}

theorem accepts_statement {P : Stmt → Prop} (h : ∀ n, Accepts (n + 1) after (l :: us)
      (statementAt (expression n) (sumExpr n) (braced (statement n) n true) n l.kind) P) (n : Nat) :
    Accepts n after (l :: us) (statement n) P := by
  cases n with
  | zero => exact .zero
  | succ n =>
    rw [statement, statementWith]
    refine .quiet (quiet_enter _) fun _ => .choose (p := statementAt (expression n) (sumExpr n)
      (braced (statement n) n true) n) (h n)

theorem accepted_action {x : Nat → Parser Expr}
    (hx : ∀ n, Accepts (n + 1) anything (l :: us) (x n) fun e' => e'.bare = e.bare)
    (hfactor : ∀ n, factorAt (expression n) (sumExpr n) (factor n) n l l.kind = x n)
    (hstatement : ∀ n, statementAt (expression n) (sumExpr n) (braced (statement n) n true) n
      l.kind = Stmt.expr <$> x n) : Accepted .action (l :: us) e := by
  refine ⟨accepts_factor fun n => ?_, accepts_statement fun n => ?_⟩
  · rw [hfactor n]
    exact hx n
  · rw [hstatement n]
    exact (hx n).map fun e' he => by rw [Stmt.bare, Stmt.bare, he]

theorem accepted_call {callee : Ident} {es : List Expr} {span : Span}
    (h : Accepted .arguments ts es) :
    Accepted .action (.identifier callee.name :: ts) (Expr.call callee es span) := by
  have hcall (n : Nat) : Accepts (n + 1) anything (.identifier callee.name :: ts)
      (call (expression n) n) fun e' => e'.bare = (Expr.call callee es span).bare := by
    refine .quiet quiet_here fun start => .ident (Nat.le_refl _) fun callee' hcallee => ?_
    refine (h.arguments n).goOn (fun es' hes => .spanned fun span => ?_) fun _ h => h
    rw [Expr.bare, Expr.bare, Ident.bare_eq hcallee, hes]
  obtain ⟨us, rfl, -⟩ := h
  refine ⟨accepts_factor fun n => .lookAt (hcall n), accepts_statement fun n => .lookAt ?_⟩
  exact (hcall n).map fun e' he => by rw [Stmt.bare, Stmt.bare, he]

theorem accepted_input (prompt : Option Prompt) (span : Span) :
    Accepted .action (.of .input :: .of .openParen :: (promptLexemes prompt ++ [.of .closeParen]))
      (Expr.input prompt span) := by
  refine accepted_action (x := fun _ => inputLine) (fun n => ?_) (fun _ => rfl) fun _ => rfl
  rw [inputLine_eq]
  refine .quiet quiet_here fun start => .mark (Nat.le_succ _) (.mark (Nat.le_succ _) ?_)
  refine .seq (B := Before (· == .mark .closeParen))
    (P := fun prompt' => prompt'.map Prompt.bare = prompt.map Prompt.bare) ?_ ?_ fun _ _ => rfl
  · cases prompt with
    | none =>
      refine .token (fun rest t hrest ht => if_neg ?_) (.pure rfl)
      rw [ht, promptLexemes, List.nil_append, eq_of_beq hrest]
      decide
    | some prompt =>
      refine .current fun t ht => ?_
      have hkind : t.kind = .string := by rw [Token.kind, ← Lexeme.kind_said, ht, Lexeme.kind]
      have htext : textOf t.lexeme = prompt.text := by
        cases hl : t.lexeme <;> rw [hl] at ht <;> cases ht
        rfl
      rw [if_pos hkind, htext]
      exact .word (Nat.le_succ _) (.pure rfl)
  · exact fun prompt' hprompt => .mark (Nat.le_succ _) (.spanned fun span => by
      rw [Expr.bare, Expr.bare, hprompt])

/-- What may stand between the name of a file that is read and the closing parenthesis. -/
theorem accepts_readFile {file : Ident} {span : Span} (ts : List Lexeme) (count : Option Expr)
    (h : ∀ n, Accepts n (Before (· == .mark .closeParen)) ts (readCount (expression n))
      fun count' => count'.map Expr.bare = count.map Expr.bare) :
    Accepts (n + 1) after
      (l :: .of .openParen :: .identifier file.name :: (ts ++ [.of .closeParen]))
      (readFile (expression n)) fun e' => e'.bare = (Expr.read file count span).bare := by
  refine .quiet quiet_here fun start => .word (Nat.le_refl _) (.mark (Nat.le_succ _) ?_)
  refine .ident (Nat.le_succ _) fun file' hfile => ?_
  refine (h n).seq (fun count' hcount => ?_) fun _ _ => rfl
  refine .mark (Nat.le_succ _) (.spanned fun span => ?_)
  rw [Expr.bare_read, Expr.bare_read, Ident.bare_eq hfile, hcount]

theorem accepted_readAll (file : Ident) (span : Span) :
    Accepted .action [.of .readFile, .of .openParen, .identifier file.name, .of .closeParen]
      (Expr.read file none span) := by
  have hnone (n : Nat) : Accepts n (Before (· == .mark .closeParen)) []
      (readCount (expression n)) fun count => count.map Expr.bare = none := by
    refine .skip (fun rest hrest => ?_) (.pure rfl)
    rw [List.nil_append, eq_of_beq hrest]
    decide
  exact accepted_action (fun n => accepts_readFile [] none hnone) (fun _ => rfl) fun _ => rfl

theorem accepted_readSome {file : Ident} {span : Span} (h : AcceptedExpr ts e) :
    Accepted .action (.of .readFile :: .of .openParen :: .identifier file.name :: .of .comma ::
      (ts ++ [.of .closeParen])) (Expr.read file (some e) span) := by
  have hsome (n : Nat) : Accepts n (Before (· == .mark .closeParen)) (.of .comma :: ts)
      (readCount (expression n)) fun count => count.map Expr.bare = some e.bare := by
    obtain ⟨first, us, rfl, hfirst⟩ := h.opens
    refine .test rfl (.word (Nat.le_succ n) (.choose ?_))
    rw [hfirst, if_pos rfl]
    refine (h.accepts n).goOn (fun e' he => .pure (by simp [he])) fun rest hrest => ?_
    rw [Before, eq_of_beq hrest]
    rfl
  exact accepted_action (fun n => accepts_readFile (.of .comma :: ts) (some e) hsome)
    (fun _ => rfl) fun _ => rfl

theorem accepted_readLine (file : Ident) (span : Span) :
    Accepted .action [.of .readLine, .of .openParen, .identifier file.name, .of .closeParen]
      (Expr.readLine file span) := by
  refine accepted_action (fun n => accepts_fileVerb fun file' span hfile => ?_) (fun _ => rfl)
    fun _ => rfl
  rw [Expr.bare, Expr.bare, hfile]

end Actions

end Kotoba.Syntax
