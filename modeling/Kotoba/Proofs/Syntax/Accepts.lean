import Kotoba.Proofs.Syntax.Derived

/-! How productions take in given tokens, with what may follow them. -/
namespace Kotoba.Syntax

open Token (Lexeme Kind)
open Kotoba.Syntax.Parser

/-- The reading of the grammar in which everything that is derived is parsed. -/
def Dialect.strict : Dialect := ⟨true, false, true⟩

/-- A state before the given tokens, which end without a fault. -/
structure Ready (s : State) (ls : List Lexeme) : Prop where
  proper : s.Proper
  clean : s.clean
  lexemes : s.lexemes = ls

namespace Ready

variable {s s' : State} {l : Lexeme} {ls : List Lexeme}

theorem alike (h : Ready s ls) (ha : Alike s s') : Ready s' ls :=
  ⟨ha.proper h.proper, by rw [ha.clean]; exact h.clean, by rw [ha.lexemes]; exact h.lexemes⟩

theorem kind (h : Ready s ls) : s.current.kind = (front ls).kind := by
  rw [← h.lexemes, kind_front]

theorem said (h : Ready s ls) : s.current.lexeme.said = front ls := by
  rw [← h.lexemes, said_current]

theorem kinds (h : Ready s ls) : s.kinds = ls.map Lexeme.kind := by
  rw [← h.lexemes, map_kind_lexemes]

theorem advance (h : Ready s (l :: ls)) : ∃ s', Parser.advance s = .ok () s' ∧ Ready s' ls := by
  obtain ⟨s', hadvance, hp, -, hc, hleft⟩ := advance_ok h.proper h.kinds (.inr h.clean)
  refine ⟨s', hadvance, hp, by rw [hc]; exact h.clean, ?_⟩
  have hlexemes := h.lexemes
  rw [State.lexemes, hleft] at hlexemes
  exact (List.cons.inj hlexemes).2

theorem peek (h : Ready s (l :: ls)) :
    ∃ s', Parser.peek s = .ok (front ls).kind s' ∧ Ready s' (l :: ls) := by
  obtain ⟨s', hpeek, halike⟩ := peek_ok h.proper h.kinds (.inr h.clean)
  refine ⟨s', ?_, h.alike halike⟩
  rw [hpeek]
  cases ls <;> rfl

end Ready

variable {α β : Type}

/-- A production that takes in the tokens `ts` if fewer than `n` tokens are to come. -/
def Accepts (n : Nat) (after : List Lexeme → Prop) (ts : List Lexeme) (x : Parser α)
    (P : α → Prop) : Prop :=
  ∀ s rest, Ready s (ts ++ rest) → after rest → (ts ++ rest).length < n →
    ∃ a s', x s = .ok a s' ∧ Ready s' rest ∧ P a

/-- Anything may follow. -/
abbrev anything (_ : List Lexeme) : Prop := True

/-- A token of a kind that satisfies `p` follows. -/
abbrev Before (p : Kind → Bool) (rest : List Lexeme) : Prop := p (front rest).kind

namespace Accepts

variable {n m : Nat} {after B : List Lexeme → Prop} {l : Lexeme} {ts us : List Lexeme}
  {x : Parser α} {f : α → Parser β} {P : α → Prop} {Q : β → Prop}

theorem zero : Accepts 0 after ts x P := by
  intro s rest _ _ hlen
  exact absurd hlen (Nat.not_lt_zero _)

/-- One production after another; what the first one takes in is no more to come for the other. -/
theorem bind (hx : Accepts n B ts x P) (hf : ∀ a, P a → Accepts m after us (f a) Q)
    (hj : ∀ rest, after rest → B (us ++ rest)) (hn : n ≤ m + ts.length) :
    Accepts n after (ts ++ us) (x >>= f) Q := by
  intro s rest hs hrest hlen
  rw [List.append_assoc] at hs hlen
  obtain ⟨a, s₁, hx, hs₁, ha⟩ := hx s (us ++ rest) hs (hj rest hrest) hlen
  have hlen₁ : (us ++ rest).length < m := by
    rw [List.length_append] at hlen
    omega
  obtain ⟨b, s₂, hf, h⟩ := hf a ha s₁ rest hs₁ hrest hlen₁
  exact ⟨b, s₂, by rw [Step.bind_apply, hx]; exact hf, h⟩

theorem seq (hx : Accepts n B ts x P) (hf : ∀ a, P a → Accepts n after us (f a) Q)
    (hj : ∀ rest, after rest → B (us ++ rest)) : Accepts n after (ts ++ us) (x >>= f) Q :=
  hx.bind hf hj (Nat.le_add_right _ _)

/-- A production that takes in nothing after another one. -/
theorem goOn (hx : Accepts n B ts x P) (hf : ∀ a, P a → Accepts n after [] (f a) Q)
    (hj : ∀ rest, after rest → B rest) : Accepts n after ts (x >>= f) Q := by
  rw [← List.append_nil ts]
  exact hx.seq hf hj

theorem mono {P' : α → Prop} (hx : Accepts n after ts x P) (h : ∀ a, P a → P' a) :
    Accepts n after ts x P' := by
  intro s rest hs hrest hlen
  obtain ⟨a, s', hx, hs', ha⟩ := hx s rest hs hrest hlen
  exact ⟨a, s', hx, hs', h a ha⟩

theorem within (hx : Accepts m after ts x P) (hn : n ≤ m) : Accepts n after ts x P :=
  fun s rest hs hrest hlen => hx s rest hs hrest (Nat.lt_of_lt_of_le hlen hn)

theorem followed (hx : Accepts n B ts x P) (h : ∀ rest, after rest → B rest) :
    Accepts n after ts x P :=
  fun s rest hs hrest hlen => hx s rest hs (h rest hrest) hlen

theorem pure {a : α} (h : P a) : Accepts n after [] (Pure.pure a) P :=
  fun s _ hs _ _ => ⟨a, s, rfl, hs, h⟩

theorem map (hx : Accepts n after ts x P) {g : α → β} (h : ∀ a, P a → Q (g a)) :
    Accepts n after ts (g <$> x) Q := by
  rw [map_eq_pure_bind]
  exact hx.goOn (fun a ha => .pure (h a ha)) fun _ h => h

theorem quiet (hx : x.Quiet) (hf : ∀ a, Accepts n after ts (f a) Q) :
    Accepts n after ts (x >>= f) Q := by
  intro s rest hs hrest hlen
  obtain ⟨a, s₁, hxs, halike⟩ := hx.alike s
  obtain ⟨b, s₂, hfs, h⟩ := hf a s₁ rest (hs.alike halike) hrest hlen
  exact ⟨b, s₂, by rw [Step.bind_apply, hxs]; exact hfs, h⟩

/-- The end of a production: a tree is made, which spans what was consumed. -/
theorem spanned {start : Position} {g : Span → β} (h : ∀ span, Q (g span)) :
    Accepts n after [] (finish start >>= fun span => Pure.pure (g span)) Q :=
  quiet (quiet_finish _) fun span => .pure (h span)

/-- A token is passed over, and there is one less to come. -/
theorem word {f : Unit → Parser β} (hn : n ≤ m + 1) (hf : Accepts m after us (f ()) Q) :
    Accepts n after (l :: us) (Parser.advance >>= f) Q := by
  intro s rest hs hrest hlen
  obtain ⟨s₁, hadvance, hs₁⟩ := hs.advance
  rw [List.cons_append, List.length_cons] at hlen
  obtain ⟨b, s₂, hf, h⟩ := hf s₁ rest hs₁ hrest (by omega)
  exact ⟨b, s₂, by rw [Step.bind_apply, hadvance]; exact hf, h⟩

theorem advance : Accepts n after [l] Parser.advance fun _ => True := by
  rw [← bind_pure Parser.advance]
  exact word (Nat.le_succ n) (.pure trivial)

/-- A production that is chosen by the kind of the current token. -/
theorem kind {p : Kind → Parser β} {q : Parser β}
    (h : ∀ rest, after rest → p (front (ts ++ rest)).kind = q) (hq : Accepts n after ts q Q) :
    Accepts n after ts (Parser.kind >>= p) Q := by
  intro s rest hs hrest hlen
  obtain ⟨b, s', hqs, hb⟩ := hq s rest hs hrest hlen
  refine ⟨b, s', ?_, hb⟩
  rw [← hqs, ← h rest hrest, ← hs.kind]
  rfl

/-- A production that is chosen by the kind of its first token. -/
theorem choose {p : Kind → Parser β} (h : Accepts n after (l :: us) (p l.kind) Q) :
    Accepts n after (l :: us) (Parser.kind >>= p) Q :=
  kind (fun _ _ => rfl) h

/-- A production for which a token has to be there, and it is. -/
theorem hit {k : Kind} {p q : Parser β} (hk : ∀ rest, after rest → (front (ts ++ rest)).kind = k)
    (hp : Accepts n after ts p Q) :
    Accepts n after ts (Parser.at? k >>= fun b => if b then p else q) Q := by
  refine kind (p := fun k' => if k' == k then p else q) (fun rest hrest => if_pos ?_) hp
  rw [hk rest hrest, beq_self_eq_true]

theorem test {k : Kind} {p q : Parser β} (hk : l.kind = k) (hp : Accepts n after (l :: us) p Q) :
    Accepts n after (l :: us) (Parser.at? k >>= fun b => if b then p else q) Q :=
  hit (fun _ _ => hk) hp

/-- A production for which a token must not be there, and it is not. -/
theorem skip {k : Kind} {p q : Parser β}
    (hk : ∀ rest, after rest → (front (ts ++ rest)).kind ≠ k) (hq : Accepts n after ts q Q) :
    Accepts n after ts (Parser.at? k >>= fun b => if b then p else q) Q := by
  refine kind (p := fun k' => if k' == k then p else q) (fun rest hrest => if_neg ?_) hq
  simpa using hk rest hrest

theorem peek {p : Kind → Parser β} {q : Parser β}
    (h : ∀ rest, after rest → p (front (us ++ rest)).kind = q)
    (hq : Accepts n after (l :: us) q Q) : Accepts n after (l :: us) (Parser.peek >>= p) Q := by
  intro s rest hs hrest hlen
  obtain ⟨s₁, hpeek, hs₁⟩ := hs.peek
  obtain ⟨b, s', hqs, hb⟩ := hq s₁ rest hs₁ hrest hlen
  refine ⟨b, s', ?_, hb⟩
  rw [Step.bind_apply, hpeek, ← hqs, ← h rest hrest]
  rfl

/-- A production that is chosen by the kind of its second token. -/
theorem lookAt {l' : Lexeme} {p : Kind → Parser β}
    (h : Accepts n after (l :: l' :: us) (p l'.kind) Q) :
    Accepts n after (l :: l' :: us) (Parser.peek >>= p) Q :=
  peek (fun _ _ => rfl) h

theorem current {p : Token → Parser β}
    (h : ∀ t : Token, t.lexeme.said = l → Accepts n after (l :: us) (p t) Q) :
    Accepts n after (l :: us) (Parser.current >>= p) Q :=
  fun s rest hs hrest hlen => h s.current hs.said s rest hs hrest hlen

theorem token {p : Token → Parser β} {q : Parser β}
    (h : ∀ rest (t : Token), after rest → t.kind = (front (ts ++ rest)).kind → p t = q)
    (hq : Accepts n after ts q Q) : Accepts n after ts (Parser.current >>= p) Q := by
  intro s rest hs hrest hlen
  obtain ⟨b, s', hqs, hb⟩ := hq s rest hs hrest hlen
  refine ⟨b, s', ?_, hb⟩
  rw [← hqs, ← h rest s.current hrest hs.kind]
  rfl

/-- A production that begins with a mark. -/
theorem mark {mk : Mark} {f : Unit → Parser β} (hn : n ≤ m + 1)
    (hf : Accepts m after us (f ()) Q) :
    Accepts n after (.of mk :: us) (expect (.mark mk) >>= f) Q := by
  unfold expect
  rw [bind_assoc]
  refine kind (q := Parser.advance >>= f) (p := fun k => (if (k == .mark mk) = true then
    Parser.advance else Parser.unexpected [(Kind.mark mk).expectation]) >>= f) ?_ (.word hn hf)
  intro rest _
  rw [if_pos]
  exact beq_self_eq_true _

/-- A production that begins with a name. -/
theorem ident {name : String} {f : Ident → Parser β} (hn : n ≤ m + 1)
    (hf : ∀ ident : Ident, ident.name = name → Accepts m after us (f ident) Q) :
    Accepts n after (.identifier name :: us) (expectName >>= f) Q := by
  unfold expectName
  rw [bind_assoc]
  refine current fun t ht => ?_
  cases hl : t.lexeme with
  | identifier x =>
    rw [hl] at ht
    cases ht
    dsimp only
    rw [bind_assoc]
    exact .word hn (hf ⟨name, t.span⟩ rfl)
  | _ =>
    rw [hl] at ht
    cases ht

theorem name {name : String} :
    Accepts n after [.identifier name] expectName fun ident => ident.name = name := by
  rw [← bind_pure expectName]
  exact ident (Nat.le_succ n) fun ident hname => .pure hname

/-- A production that begins with an operator. -/
theorem operator {op : Op} {f : Operator → Parser β} (hn : n ≤ m + 1)
    (hf : ∀ o : Operator, o.op = op → Accepts m after us (f o) Q) :
    Accepts n after (l :: us) (Parser.operator op >>= f) Q := by
  unfold Parser.operator
  rw [bind_assoc]
  refine quiet (quiet_gets _) fun t => ?_
  rw [bind_assoc]
  exact .word hn (hf ⟨op, t.span⟩ rfl)

/-- A production that begins with a part in parentheses. -/
theorem inParens (hn : n ≤ m + 1) (hx : Accepts m B ts x P)
    (hb : ∀ rest, B (.of .closeParen :: rest)) (hf : ∀ a, P a → Accepts m after us (f a) Q) :
    Accepts n after (.of .openParen :: (ts ++ .of .closeParen :: us)) (parenthesized x >>= f)
      Q := by
  unfold parenthesized
  simp only [bind_assoc, pure_bind]
  refine .mark hn (hx.seq (fun a ha => .mark (Nat.le_succ m) (hf a ha)) ?_)
  exact fun rest _ => hb _

end Accepts

/-- Whether a token of the given kind leaves a factor as it is. -/
def endsFactor (k : Kind) : Bool := k ≠ .mark .openParen && k ≠ .mark .openBracket

def endsProduct (k : Kind) : Bool := endsFactor k && (multiplicativeOp? k).isNone

def endsSum (k : Kind) : Bool := endsProduct k && (additiveOp? k).isNone

def endsComparison (k : Kind) : Bool := endsSum k && (relationalOp? k).isNone

/-- Whether a token of the given kind may directly follow a statement. -/
def endsStatement (k : Kind) : Bool :=
  startsStatement k || k ∈ [.mark .semicolon, .mark .closeBrace, .mark .leave, .mark .proceed]

/-- Whether a token of the given kind may follow the last statement of a body. -/
def endsStatements (k : Kind) : Bool := k ∈ [.mark .closeBrace, .mark .leave, .mark .proceed]

theorem endsFactor_of_op {k : Kind} (h : (multiplicativeOp? k).isSome) : endsFactor k := by
  cases k with
  | mark m => cases m <;> first | rfl | cases h
  | _ => cases h

theorem endsProduct_of_op {k : Kind} (h : (additiveOp? k).isSome) : endsProduct k := by
  cases k with
  | mark m => cases m <;> first | rfl | cases h
  | _ => cases h

theorem endsSum_of_op {k : Kind} (h : (relationalOp? k).isSome) : endsSum k := by
  cases k with
  | mark m => cases m <;> first | rfl | cases h
  | _ => cases h

theorem endsStatement_of_endsStatements {k : Kind} (h : endsStatements k) : endsStatement k := by
  unfold endsStatement
  simp [endsStatements] at h
  simp [h]

theorem endsComparison_of_endsStatement {k : Kind} (h : endsStatement k) : endsComparison k := by
  cases k with
  | mark m => cases m <;> first | rfl | cases h
  | identifier => rfl
  | _ => cases h

/-- A layer of operators of which the part `ts` was taken in: the operators that follow are to be
applied to what this part stands for. -/
def Reaches (n : Nat) (after : List Lexeme → Prop) (ts : List Lexeme) (x : Parser Expr)
    (next : Position → Nat → Expr → Parser Expr) (P : Expr → Prop) : Prop :=
  ∀ s rest, Ready s (ts ++ rest) → after rest → (ts ++ rest).length < n →
    ∃ start fuel e s', x s = next start fuel e s' ∧ Ready s' rest ∧ rest.length < fuel ∧ P e

namespace Reaches

variable {n : Nat} {after before : List Lexeme → Prop} {ts us : List Lexeme} {layer : Layer}
  {op? : Kind → Option Op} {x operand : Parser Expr} {P Q R : Expr → Prop}

theorem first (h : Accepts n after ts operand P) :
    Reaches n after ts (do
        let start ← here
        let left ← operand
        chain layer op? operand start n left)
      (chain layer op? operand) P := by
  intro s rest hs hrest hlen
  obtain ⟨e, s', hoperand, hs', he⟩ := h s rest hs hrest hlen
  refine ⟨s.current.start, n, e, s', ?_, hs', ?_, he⟩
  · rw [Step.bind_apply, here, Step.gets]
    dsimp only
    rw [Step.bind_apply, hoperand]
  · rw [List.length_append] at hlen
    omega

/-- One more operator, with its right operand. -/
theorem more {m : Mark} {op : Op} (hleft : Reaches n after ts x (chain layer op? operand) P)
    (hop : op? (.mark m) = some op) (hright : Accepts n after us operand R)
    (hm : ∀ rest, after (.of m :: rest))
    (h : ∀ l (o : Operator) r span, P l → o.op = op → R r → Q (.binary layer l o r span)) :
    Reaches n after (ts ++ .of m :: us) x (chain layer op? operand) Q := by
  intro s rest hs hrest hlen
  rw [List.append_assoc, List.cons_append] at hs hlen
  obtain ⟨start, fuel, l, s₁, hx, hs₁, hfuel, hl⟩ := hleft s _ hs (hm _) hlen
  cases fuel with
  | zero => exact absurd hfuel (Nat.not_lt_zero _)
  | succ fuel =>
    have hlen₁ : (us ++ rest).length < n := by
      rw [List.length_append, List.length_cons] at hlen
      omega
    obtain ⟨s₂, hadvance, hs₂⟩ := hs₁.advance
    obtain ⟨r, s₃, hoperand, hs₃, hr⟩ := hright s₂ rest hs₂ hrest hlen₁
    let span : Span := ⟨start, if s₃.lastStop.isUnknown then start else s₃.lastStop⟩
    refine ⟨start, fuel, .binary layer l ⟨op, s₁.current.span⟩ r span, s₃, ?_, hs₃, ?_,
      h _ _ _ _ hl rfl hr⟩
    · rw [hx, chain, Step.bind_apply, Parser.kind, Step.gets]
      dsimp only
      rw [hs₁.kind]
      dsimp only [front, Lexeme.kind]
      rw [hop]
      dsimp only
      rw [operator, bind_assoc, Step.bind_apply, current, Step.gets]
      dsimp only
      rw [bind_assoc, Step.bind_apply, hadvance]
      dsimp only
      rw [pure_bind, Step.bind_apply, hoperand]
      rfl
    · rw [List.length_cons, List.length_append] at hfuel
      omega

/-- No more operator. -/
theorem done (h : Reaches n before ts x (chain layer op? operand) P)
    (hb : ∀ rest, after rest → before rest ∧ op? (front rest).kind = none) :
    Accepts n after ts x P := by
  intro s rest hs hrest hlen
  obtain ⟨hbefore, hop⟩ := hb rest hrest
  obtain ⟨start, fuel, e, s', hx, hs', hfuel, he⟩ := h s rest hs hbefore hlen
  cases fuel with
  | zero => exact absurd hfuel (Nat.not_lt_zero _)
  | succ fuel =>
    refine ⟨e, s', ?_, hs', he⟩
    rw [hx, chain, Step.bind_apply, Parser.kind, Step.gets]
    dsimp only
    rw [hs'.kind, hop]
    rfl

end Reaches

/-- What the first token of a category is like, where there is always one. -/
def Category.opening : Category → Option (Kind → Bool)
  | .factor | .product | .sum | .expr | .items => some startsExpression
  | .action => some fun k => startsExpression k && startsStatement k
  | .arguments => some (· == .mark .openParen)
  | .statement => some startsStatement
  | .block _ => some (· == .mark .openBrace)
  | .definition => some (· == .mark .define)
  | _ => none

/-- The part of a program that is an expression, or a list of them. -/
def Category.isExpr : Category → Bool
  | .factor | .product | .sum | .expr | .action | .items | .arguments => true
  | _ => false

namespace Derives

variable {d : Dialect} {c : Category} {ts : List Lexeme} {t : c.Tree}

theorem opens (h : Derives d c ts t) :
    ∀ p ∈ c.opening, ∃ l us, ts = l :: us ∧ p l.kind := by
  induction h with
  | action _ ih =>
    intro p hp
    cases hp
    obtain ⟨l, us, rfl, hl⟩ := ih _ rfl
    exact ⟨l, us, rfl, (Bool.and_eq_true_iff.mp hl).1⟩
  | act _ ih =>
    intro p hp
    cases hp
    obtain ⟨l, us, rfl, hl⟩ := ih _ rfl
    exact ⟨l, us, rfl, (Bool.and_eq_true_iff.mp hl).2⟩
  | unary _ _ hm _ _ =>
    intro p hp
    cases hp
    refine ⟨_, _, rfl, ?_⟩
    unfold unaryOp? at hm
    split at hm <;> first | rfl | cases hm
  | print newline | write _ newline =>
    intro p hp
    cases hp
    cases newline <;> exact ⟨_, _, rfl, rfl⟩
  | ofFactor _ ih | ofProduct _ ih | ofSum _ ih | oneItem _ ih => exact ih
  | multiply _ _ _ _ _ ih | add _ _ _ _ _ ih | compare _ _ _ _ _ ih | moreItems _ _ ih =>
    intro p hp
    cases hp
    obtain ⟨l, us, rfl, hl⟩ := ih _ rfl
    exact ⟨l, _, rfl, hl⟩
  | _ =>
    intro p hp
    cases hp <;> exact ⟨_, _, rfl, rfl⟩

theorem ne_nil (h : Derives d c ts t) (hc : c.opening.isSome) : ts ≠ [] := by
  obtain ⟨p, hp⟩ := Option.isSome_iff_exists.mp hc
  obtain ⟨l, us, rfl, -⟩ := h.opens p hp
  exact List.cons_ne_nil l us

/-- Nothing is assigned in an expression, and no statement ends in one. -/
theorem mark_not_mem {m : Mark} (hm : m = .assign ∨ m = .semicolon) (h : Derives d c ts t)
    (hc : c.isExpr) : .mark m ∉ ts.map Lexeme.kind := by
  induction h with
  | unary _ _ hop _ ih =>
    rw [List.map_cons, List.mem_cons]
    rintro (he | h)
    · cases he
      obtain rfl | rfl := hm <;> cases hop
    · exact ih rfl h
  | multiply _ _ _ hop _ ih ih' | add _ _ _ hop _ ih ih' | compare _ _ _ hop _ ih ih' =>
    rw [List.map_append, List.mem_append, List.map_cons, List.mem_cons]
    rintro (h | he | h)
    · exact ih rfl h
    · cases he
      obtain rfl | rfl := hm <;> cases hop
    · exact ih' rfl h
  | input prompt => cases prompt <;> obtain rfl | rfl := hm <;> simp [promptLexemes, Lexeme.kind]
  | _ => obtain rfl | rfl := hm <;> simp_all [Category.isExpr, Lexeme.kind]

/-- The tokens of some statements begin with a statement, if there are any. -/
theorem statements_opens {ss : List Stmt} (h : Derives d .statements ts ss) :
    ts = [] ∨ ∃ l us, ts = l :: us ∧ startsStatement l.kind := by
  cases h with
  | noStatements => exact .inl rfl
  | statements _ first _ _ =>
    obtain ⟨l, us, rfl, hl⟩ := first.opens _ rfl
    exact .inr ⟨l, _, rfl, hl⟩

theorem otherwise_opens {last : Option Otherwise} (h : Derives d .otherwise ts last) :
    ts = [] ∨ ∃ us, ts = .of .otherwise :: us := by
  cases h with
  | noOtherwise => exact .inl rfl
  | otherwise _ _ => exact .inr ⟨_, rfl⟩

theorem definitions_opens {fs : List FuncDef} (h : Derives d .definitions ts fs) :
    ts = [] ∨ ∃ l us, ts = l :: us ∧ l.kind = .mark .define := by
  cases h with
  | noDefinitions => exact .inl rfl
  | definitions first _ =>
    obtain ⟨l, us, rfl, hl⟩ := first.opens _ rfl
    exact .inr ⟨l, _, rfl, eq_of_beq hl⟩

end Derives

end Kotoba.Syntax
