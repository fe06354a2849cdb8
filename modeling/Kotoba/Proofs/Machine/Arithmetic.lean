import Kotoba.Proofs.Syntax.Print
import Kotoba.Session

/-! Integer arithmetic. What an arithmetic tree denotes is what comes of it when it is written down,
with no more parentheses than it needs, and entered. -/
namespace Kotoba

open Token (Lexeme)
open Syntax (Derives)

/-- The operations on integers. -/
inductive Operation where
  | add
  | sub
  | mul
  | div
  | rem

namespace Operation

def op : Operation → Op
  | add => .add
  | sub => .sub
  | mul => .mul
  | div => .div
  | rem => .mod

/-- The word for an operation. A remainder has none. -/
def word : Operation → String
  | add => "purasu"
  | sub => "mainasu"
  | mul => "purodakuto"
  | div => "supuritto"
  | rem => ""

/-- How an operator is spelled where it is a word; signs are not spelled. -/
def spelling (o : Operation) (worded : Bool) : String := if worded then o.word else ""

/-- An operator, as a word or as a sign. -/
def lexeme (o : Operation) (worded : Bool) : Lexeme := .mark o.op.sign (o.spelling worded)

/-- Operations of a higher rank come first. -/
def rank : Operation → Nat
  | add | sub => 0
  | mul | div | rem => 1

/-- An operation on integers of any size. Division goes toward zero, and the remainder has the
sign of the dividend; neither can be done by zero. -/
def on : Operation → Int → Int → Option Int
  | add, a, b => some (a + b)
  | sub, a, b => some (a - b)
  | mul, a, b => some (a * b)
  | div, a, b => if b = 0 then none else some (a.tdiv b)
  | rem, a, b => if b = 0 then none else some (a.tmod b)

end Operation

/-- Arithmetic trees over the integers that can be written. Each operator is a word or a sign. -/
inductive Arith where
  | literal (value : Nat) (small : value ≤ Token.maxInteger)
  | neg (worded : Bool) (operand : Arith)
  | binary (operation : Operation) (worded : Bool) (left right : Arith)

namespace Arith

/-- The integer of 64 bits, in two's complement, that an integer wraps around to. -/
def wrap (n : Int) : Int := n.bmod Int64.size

/-- What a tree denotes, from left to right; nothing if a divisor is zero. -/
def value : Arith → Option Int
  | literal n _ => some n
  | neg _ t => t.value.bind fun a => some (wrap (-a))
  | binary o _ l r => l.value.bind fun a => r.value.bind fun b => (o.on a b).map wrap

/-- The tokens of a tree where operations below the given rank have to be in parentheses. -/
def lexemes : Arith → (rank : Nat) → List Lexeme
  | literal n _, _ => [.integer n]
  | neg worded t, _ => Operation.sub.lexeme worded :: t.lexemes 2
  | binary o worded l r, rank =>
    let ls := l.lexemes o.rank ++ o.lexeme worded :: r.lexemes (o.rank + 1)
    if rank ≤ o.rank then ls else inParens ls

/-- How the operators of a tree are spelled. -/
def words : Arith → List String
  | literal _ _ => []
  | neg worded t => Operation.sub.spelling worded :: t.words
  | binary o worded l r => l.words ++ o.spelling worded :: r.words

/-- A tree as a text, with spaces between the tokens. -/
def text (t : Arith) : Bytes := Bytes.ofString (String.ofList (Token.written (t.lexemes 0)))

/-- The expressions that are read as a tree. -/
inductive Reads : Arith → Expr → Prop
  | literal (n : Nat) (small : n ≤ Token.maxInteger) (span : Span) :
    Reads (.literal n small) (.int (Int64.ofNat n) span)
  | group {t : Arith} {e : Expr} (span : Span) (inner : Reads t e) : Reads t (.group e span)
  | neg {t : Arith} {e : Expr} (worded : Bool) (opSpan span : Span) (operand : Reads t e) :
    Reads (.neg worded t) (.unary ⟨.sub, opSpan⟩ e span)
  | binary {l r : Arith} {a b : Expr} (o : Operation) (worded : Bool) (layer : Layer)
    (opSpan span : Span) (left : Reads l a) (right : Reads r b) :
    Reads (.binary o worded l r) (.binary layer a ⟨o.op, opSpan⟩ b span)

/-- Whether an expression is read as a tree does not depend on spans. -/
theorem Reads.of_bare {t : Arith} {e e' : Expr} (h : Reads t e) (he : e'.bare = e.bare) :
    Reads t e' := by
  induction h generalizing e' with
  | literal n small span =>
    cases e' <;> simp only [Expr.bare, Expr.bare_read, Expr.int.injEq, reduceCtorEq] at he
    rw [he.1]
    exact .literal n small _
  | group span _ ih =>
    cases e' <;> simp only [Expr.bare, Expr.bare_read, Expr.group.injEq, reduceCtorEq] at he
    exact .group _ (ih he.1)
  | neg worded opSpan span _ ih =>
    cases e' <;> simp only [Expr.bare, Expr.bare_read, Expr.unary.injEq, reduceCtorEq] at he
    rename_i op e' span'
    obtain ⟨op, opSpan'⟩ := op
    obtain ⟨hop, he, -⟩ := he
    cases hop
    exact .neg worded opSpan' span' (ih he)
  | binary o worded layer opSpan span _ _ ihl ihr =>
    cases e' <;> simp only [Expr.bare, Expr.bare_read, Expr.binary.injEq, reduceCtorEq] at he
    rename_i layer' a op b span'
    obtain ⟨op, opSpan'⟩ := op
    obtain ⟨-, ha, hop, hb, -⟩ := he
    cases hop
    exact .binary o worded layer' opSpan' span' (ihl ha) (ihr hb)

/-- A tree is found in its tokens, wherever it may stand. -/
structure Derivable (t : Arith) : Prop where
  sum : ∃ e, Reads t e ∧ Derives .strict .sum ((t.lexemes 0).map Lexeme.said) e
  product : ∃ e, Reads t e ∧ Derives .strict .product ((t.lexemes 1).map Lexeme.said) e
  factor : ∃ e, Reads t e ∧ Derives .strict .factor ((t.lexemes 2).map Lexeme.said) e

theorem derivable_of_factor {t : Arith} {e : Expr} (hsum : t.lexemes 0 = t.lexemes 2)
    (hproduct : t.lexemes 1 = t.lexemes 2) (hr : Reads t e)
    (h : Derives .strict .factor ((t.lexemes 2).map Lexeme.said) e) : Derivable t := by
  refine ⟨⟨e, hr, ?_⟩, ⟨e, hr, ?_⟩, ⟨e, hr, h⟩⟩
  · rw [hsum]
    exact .ofProduct (.ofFactor h)
  · rw [hproduct]
    exact .ofFactor h

section Binary

variable {o : Operation} {worded : Bool} {l r : Arith}

/-- The tokens of an operation without parentheses around it. -/
def binaryLexemes (o : Operation) (worded : Bool) (l r : Arith) : List Lexeme :=
  l.lexemes o.rank ++ o.lexeme worded :: r.lexemes (o.rank + 1)

theorem lexemes_of_le {rank : Nat} (h : rank ≤ o.rank) :
    (binary o worded l r).lexemes rank = binaryLexemes o worded l r := if_pos h

theorem lexemes_of_lt {rank : Nat} (h : o.rank < rank) :
    (binary o worded l r).lexemes rank = inParens (binaryLexemes o worded l r) :=
  if_neg (Nat.not_le.mpr h)

theorem map_said_binaryLexemes (o : Operation) (worded : Bool) (l r : Arith) :
    (binaryLexemes o worded l r).map Lexeme.said = (l.lexemes o.rank).map Lexeme.said ++
      .of o.op.sign :: (r.lexemes (o.rank + 1)).map Lexeme.said := by
  rw [binaryLexemes, List.map_append, List.map_cons]
  rfl

theorem derives_inParens {ls : List Lexeme} {e : Expr}
    (h : Derives .strict .sum (ls.map Lexeme.said) e) :
    Derives .strict .factor ((inParens ls).map Lexeme.said) (Expr.group e {}) := by
  have hgroup := Derives.group {} (.ofSum h)
  simpa [inParens] using hgroup

theorem derivable_additive (ho : o.rank = 0)
    (hop : Syntax.additiveOp? (.mark o.op.sign) = some o.op) (hl : Derivable l)
    (hr : Derivable r) : Derivable (binary o worded l r) := by
  obtain ⟨a, ha, hda⟩ := hl.sum
  obtain ⟨b, hb, hdb⟩ := hr.product
  have hreads := Reads.binary o worded .additive {} {} ha hb
  have hsum := Derives.add {} {} hda hop hdb
  have hlexemes := map_said_binaryLexemes o worded l r
  rw [ho, Nat.zero_add] at hlexemes
  rw [← hlexemes] at hsum
  have hfactor := derives_inParens hsum
  refine ⟨⟨_, hreads, ?_⟩, ⟨_, hreads.group {}, ?_⟩, ⟨_, hreads.group {}, ?_⟩⟩
  · rwa [lexemes_of_le (Nat.zero_le _)]
  · rw [lexemes_of_lt (by omega)]
    exact .ofFactor hfactor
  · rwa [lexemes_of_lt (by omega)]

theorem derivable_multiplicative (ho : o.rank = 1)
    (hop : Syntax.multiplicativeOp? (.mark o.op.sign) = some o.op) (hl : Derivable l)
    (hr : Derivable r) : Derivable (binary o worded l r) := by
  obtain ⟨a, ha, hda⟩ := hl.product
  obtain ⟨b, hb, hdb⟩ := hr.factor
  have hreads := Reads.binary o worded .multiplicative {} {} ha hb
  have hproduct := Derives.multiply {} {} hda hop hdb
  have hlexemes := map_said_binaryLexemes o worded l r
  rw [ho] at hlexemes
  rw [← hlexemes] at hproduct
  refine ⟨⟨_, hreads, ?_⟩, ⟨_, hreads, ?_⟩, ⟨_, hreads.group {}, ?_⟩⟩
  · rw [lexemes_of_le (Nat.zero_le _)]
    exact .ofProduct hproduct
  · rwa [lexemes_of_le (by omega)]
  · rw [lexemes_of_lt (by omega)]
    exact derives_inParens (.ofProduct hproduct)

end Binary

theorem derivable (t : Arith) : Derivable t := by
  induction t with
  | literal n small => exact derivable_of_factor rfl rfl (.literal n small {}) (.int n {})
  | neg worded t ih =>
    obtain ⟨e, hr, hd⟩ := ih.factor
    exact derivable_of_factor rfl rfl (.neg worded {} {} hr) (.unary {} {} rfl hd)
  | binary o worded l r ihl ihr =>
    cases o with
    | add | sub => exact derivable_additive rfl rfl ihl ihr
    | mul | div | rem => exact derivable_multiplicative rfl rfl ihl ihr

/-- What a tree begins with does not begin a statement. -/
theorem startsValue_front (t : Arith) (rank : Nat) (rest : List Lexeme) :
    Syntax.startsValue (Syntax.front (t.lexemes rank ++ rest)).kind := by
  induction t generalizing rank rest with
  | literal n small => rfl
  | neg worded t ih => rfl
  | binary o worded l r ihl ihr =>
    by_cases h : rank ≤ o.rank
    · rw [lexemes_of_le h, binaryLexemes, List.append_assoc]
      exact ihl _ _
    · rw [lexemes_of_lt (Nat.not_le.mp h)]
      rfl

section Writing

variable {limits : Token.Limits}

theorem isLetter_of_mem_word (o : Operation) : ∀ c ∈ o.word.toList, Text.isLetter c :=
  List.all_eq_true.mp (by cases o <;> decide +kernel)

theorem writable_lexeme {o : Operation} {worded : Bool}
    (h : (o.spelling worded).length ≤ limits.identifier) : (o.lexeme worded).Writable limits := by
  have hsign : (Lexeme.of o.op.sign).Writable limits :=
    (Syntax.alwaysWritable_of (by cases o <;> decide)).2 limits
  cases worded with
  | false => exact hsign
  | true =>
    cases o with
    | rem => exact hsign
    | _ => exact ⟨⟨by decide, isLetter_of_mem_word _, h⟩, rfl⟩

theorem writable_lexemes {t : Arith}
    (hwords : ∀ word ∈ t.words, word.length ≤ limits.identifier) (rank : Nat) :
    ∀ x ∈ t.lexemes rank, x.Writable limits := by
  induction t generalizing rank with
  | literal n small =>
    rw [lexemes, List.forall_mem_singleton]
    exact small
  | neg worded t ih =>
    rw [words, List.forall_mem_cons] at hwords
    rw [lexemes, List.forall_mem_cons]
    exact ⟨writable_lexeme hwords.1, ih hwords.2 2⟩
  | binary o worded l r ihl ihr =>
    rw [words, List.forall_mem_append, List.forall_mem_cons] at hwords
    have hinner : ∀ x ∈ binaryLexemes o worded l r, x.Writable limits := by
      rw [binaryLexemes, List.forall_mem_append, List.forall_mem_cons]
      exact ⟨ihl hwords.1 _, writable_lexeme hwords.2.1, ihr hwords.2.2 _⟩
    by_cases hrank : rank ≤ o.rank
    · rwa [lexemes_of_le hrank]
    · rw [lexemes_of_lt (Nat.not_le.mp hrank), inParens, List.forall_mem_cons,
        List.forall_mem_append, List.forall_mem_singleton]
      exact ⟨(Syntax.alwaysWritable_of (by decide)).2 limits, hinner,
        (Syntax.alwaysWritable_of (by decide)).2 limits⟩

end Writing

end Arith

namespace Machine

/-- An evaluation that gives an integer, or fails for want of one because of a zero divisor. -/
structure Gives (value : Option Int) (x : Eval Value) (m : Machine) : Prop where
  ok : ∀ n, value = some n → ∃ v : Int64, v.toInt = n ∧ x m = .ok (.int v) m
  error : value = none → ∃ f, x m = .error f m ∧ f.diagnostic.kind = some .divisionByZero

namespace Gives

variable {m : Machine} {x : Eval Value} {value : Option Int}

theorem int {v : Int64} {n : Int} (h : x m = .ok (.int v) m) (hn : v.toInt = n) :
    Gives (some n) x m := by
  refine ⟨fun k hk => ⟨v, ?_, h⟩, by rintro ⟨⟩⟩
  exact hn.trans (Option.some.inj hk)

theorem zeroDivisor {f : Failure} (h : x m = .error f m)
    (hf : f.diagnostic.kind = some .divisionByZero) : Gives none x m :=
  ⟨by rintro n ⟨⟩, fun _ => ⟨f, h, hf⟩⟩

theorem bind {f : Value → Eval Value} {g : Int → Option Int} (hx : Gives value x m)
    (hf : ∀ v : Int64, Gives (g v.toInt) (f (.int v)) m) : Gives (value.bind g) (x >>= f) m := by
  cases value with
  | none =>
    obtain ⟨failure, hfail, hkind⟩ := hx.error rfl
    exact .zeroDivisor (by rw [Step.bind_apply, hfail]) hkind
  | some a =>
    obtain ⟨v, rfl, hv⟩ := hx.ok a rfl
    have happly : (x >>= f) m = f (.int v) m := by rw [Step.bind_apply, hv]
    refine ⟨fun n hn => ?_, fun hn => ?_⟩ <;> rw [happly]
    · exact (hf v).ok n hn
    · exact (hf v).error hn

/-- What is an integer is one when it is settled. -/
theorem settled (hx : Gives value x m) (span : Span) : Gives value (Machine.settled span x) m := by
  have hsettle := hx.bind (g := some) (f := fun v => Eval.settle v span) fun v => .int rfl rfl
  rwa [Option.bind_fun_some] at hsettle

end Gives

/-- The operators wrap around what the operations give. -/
theorem gives_binary (o : Operation) (a b : Int64) (span : Span) (m : Machine) :
    Gives ((o.on a.toInt b.toInt).map Arith.wrap)
      (Eval.ofExcept span (binary o.op (.int a) (.int b))) m := by
  have hzero : b.toInt = 0 ↔ b = 0 := by rw [← Int64.toInt_inj, Int64.toInt_zero]
  cases o with
  | add => exact .int rfl (Int64.toInt_add a b)
  | sub => exact .int rfl (Int64.toInt_sub a b)
  | mul => exact .int rfl (Int64.toInt_mul a b)
  | div =>
    simp only [Operation.on, Operation.op, binary, arithmetic, integerResult, hzero]
    split
    · exact .zeroDivisor rfl rfl
    · exact .int rfl (Int64.toInt_div a b)
  | rem =>
    simp only [Operation.on, Operation.op, binary, arithmetic, integerResult, hzero]
    split
    · exact .zeroDivisor rfl rfl
    · refine .int rfl ?_
      rw [Arith.wrap, ← Int64.toInt_mod, Int64.toInt_bmod_size]

/-- The result of an expression is what the tree denotes that it is read as. -/
theorem gives_eval {t : Arith} {e : Expr} (h : Arith.Reads t e) (run : Run) (m : Machine) :
    Gives t.value (eval run e) m := by
  induction h with
  | literal n small span =>
    exact .int rfl (Int64.toInt_ofNat_of_lt (Nat.lt_succ_of_le small))
  | group span _ ih => exact ih.settled _
  | neg worded opSpan span _ ih =>
    exact (ih.settled _).bind fun v => .int rfl (Int64.toInt_neg v)
  | binary o worded layer opSpan span _ _ ihl ihr =>
    exact (ihl.settled _).bind fun a => (ihr.settled _).bind fun b => gives_binary o a b span m

/-- Interpreting an expression that leaves the machine as it is gives its result. -/
theorem interpret_expr_ok {rounds : Nat} {e : Expr} {m : Machine} {n : Int64}
    (hm : m.flags.returning = false)
    (h : eval (context m.settings rounds).run e m = .ok (.int n) m) :
    interpret rounds (.expr e) m = .ok (.int n) { m with flags := {} } := by
  rw [interpret, evalNode, h]
  simp [conclude, Step.gets, Step.modify, hm]

theorem interpret_expr_error {rounds : Nat} {e : Expr} {m : Machine} {f : Failure}
    (h : eval (context m.settings rounds).run e m = .error f m) :
    interpret rounds (.expr e) m = .error f m.reset := by
  rw [interpret, evalNode, h]

end Machine

namespace Session

theorem enter_of_parse {rounds : Nat} {r : Reading} {text : Bytes} {node : Option Node}
    {s : Syntax.State} {m : Machine} (h : Syntax.parseEntry r.limits text = .ok node s) :
    enter rounds r text m = interpret rounds node (noteParse r s m) := by
  rw [enter, run, h]

/-- The text of an arithmetic tree is parsed as an expression that is read as the tree. -/
theorem parseEntry_text (t : Arith) {limits : Token.Limits}
    (hwords : ∀ word ∈ t.words, word.length ≤ limits.identifier) :
    ∃ e s, Syntax.parseEntry limits t.text = .ok (some (.expr e)) s ∧ t.Reads e := by
  obtain ⟨htokens, token, hend⟩ := Token.tokenize_written (Arith.writable_lexemes hwords 0)
  have hlexemes : Syntax.lexemesOf limits t.text = (t.lexemes 0).map Lexeme.said := htokens
  obtain ⟨e, hreads, hderives⟩ := t.derivable.sum
  have hstart := t.startsValue_front 0 []
  rw [List.append_nil, ← Syntax.kind_front_said, ← hlexemes] at hstart
  rw [← hlexemes] at hderives
  obtain ⟨e', s, hparse, hbare⟩ := Syntax.parseEntry_of_derives hend (.ofSum hderives) hstart
  exact ⟨e', s, hparse, hreads.of_bare hbare⟩

/-- Arithmetic is done as it is written. Entered on any machine on which no return is pending, a tree
gives the integer it denotes, and fails for a division by zero just when a divisor is zero. -/
theorem enter_arithmetic (t : Arith) (rounds : Nat) (r : Reading) (m : Machine)
    (hm : m.flags.returning = false)
    (hwords : ∀ word ∈ t.words, word.length ≤ r.limits.identifier) :
    (∀ n, t.value = some n →
      ∃ v : Int64, v.toInt = n ∧ (enter rounds r t.text m).1 = .value (.int v)) ∧
    (t.value = none ↔
      ∃ d, (enter rounds r t.text m).1 = .failed d ∧ d.kind = some .divisionByZero) := by
  obtain ⟨e, s, hparse, hreads⟩ := parseEntry_text t hwords
  have hflags : (noteParse r s m).flags.returning = false := hm
  have hgives := Machine.gives_eval hreads
    (Machine.context (noteParse r s m).settings rounds).run (noteParse r s m)
  have hvalue (n : Int) (hn : t.value = some n) :
      ∃ v : Int64, v.toInt = n ∧ (enter rounds r t.text m).1 = .value (.int v) := by
    obtain ⟨v, hv, heval⟩ := hgives.ok n hn
    refine ⟨v, hv, ?_⟩
    rw [enter_of_parse hparse, interpret, Machine.interpret_expr_ok hflags heval]
  refine ⟨hvalue, fun hnone => ?_, ?_⟩
  · obtain ⟨f, heval, hf⟩ := hgives.error hnone
    refine ⟨f.diagnostic, ?_, hf⟩
    rw [enter_of_parse hparse, interpret, Machine.interpret_expr_error heval]
  · rintro ⟨d, hfailed, -⟩
    cases hn : t.value with
    | none => rfl
    | some n =>
      obtain ⟨v, -, hv⟩ := hvalue n hn
      rw [hv] at hfailed
      cases hfailed

/-- The least integer divided by minus one wraps around to itself. -/
theorem enter_arithmetic_least :
    ∃ v : Int64, v.toInt = -9223372036854775808 ∧
      (enter 1 ⟨{}, false⟩ "( - 9223372036854775807 mainasu 1 ) supuritto - 1" {}).1 =
        .value (.int v) := by
  let least : Arith := .binary .sub true (.neg false (.literal Token.maxInteger (Nat.le_refl _)))
    (.literal 1 (by decide))
  let t : Arith := .binary .div true least (.neg false (.literal 1 (by decide)))
  have htext : t.text = "( - 9223372036854775807 mainasu 1 ) supuritto - 1" := by decide +kernel
  have hwords : ∀ word ∈ t.words, word.length ≤ 64 := by decide +kernel
  have hvalue : t.value = some (-9223372036854775808) := by decide +kernel
  rw [← htext]
  exact (enter_arithmetic t 1 ⟨{}, false⟩ {} rfl hwords).1 _ hvalue

end Session

end Kotoba
