import Kotoba.Proofs.Syntax.Nested

/-! Expressions take up their spans. The tokens in the span of an expression, from the first to the
last, are those the expression is derived from, and there is no other token in it. -/
namespace Kotoba

namespace Token

/-- The tokens of a scan from number `i` on and before number `j`. -/
def Scan.slice (a : Scan) (i j : Nat) : List Token := (a.tokens.drop i).take (j - i)

/-- What the tokens from number `i` on and before number `j` say. -/
def Scan.said (a : Scan) (i j : Nat) : List Lexeme := (a.slice i j).map fun t => t.lexeme.said

namespace Scan

variable {a : Scan} {i j k : Nat} {t : Token}

@[simp] theorem said_self : a.said i i = [] := by simp [said, slice]

theorem said_append_saidFrom (hij : i ≤ j) : a.said i j ++ a.saidFrom j = a.saidFrom i := by
  have hdrop : a.tokens.drop j = (a.tokens.drop i).drop (j - i) := by
    rw [List.drop_drop, Nat.add_sub_cancel' hij]
  rw [said, slice, saidFrom, saidFrom, hdrop, ← List.map_append, List.take_append_drop]

theorem said_append (hij : i ≤ j) (hjk : j ≤ k) : a.said i j ++ a.said j k = a.said i k := by
  have h : a.said i j ++ a.said j k ++ a.saidFrom k = a.said i k ++ a.saidFrom k := by
    rw [List.append_assoc, said_append_saidFrom hjk, said_append_saidFrom hij,
      said_append_saidFrom (Nat.le_trans hij hjk)]
  exact List.append_cancel_right h

theorem said_succ (ht : a.tokens[i]? = some t) : a.said i (i + 1) = [t.lexeme.said] := by
  obtain ⟨hi, rfl⟩ := List.getElem?_eq_some_iff.mp ht
  rw [said, slice, List.drop_eq_getElem_cons hi, Nat.add_sub_cancel_left]
  rfl

end Scan

end Token

namespace Syntax

open Token (Scan Kind Lexeme tokenize)
open Kotoba.Syntax.Parser

variable {α β : Type}

theorem said_of_kind_mark {t : Token} {m : Mark} (h : t.kind = .mark m) :
    t.lexeme.said = .of m := by
  apply eq_of_kind_mark (Lexeme.said_said _)
  rw [Lexeme.kind_said]
  exact h

/-- What is known of where a production ends, and of what it takes in, in one. -/
theorem Lays.taking {a : Scan} (ha : Regular a) {i : Nat} {x : Parser α} {P : Nat → α → Prop}
    {K : List Lexeme → Prop} {Q : List Lexeme → α → Prop} (hx : Lays a i x P) (hy : Yields K x Q)
    (hK : K (a.saidFrom i)) (hne : ∀ v, ¬ Q [] v) :
    Lays a i x fun j v => P j v ∧ i < j ∧ j ≤ a.tokens.length ∧ Q (a.said i j) v := by
  intro s hs
  have hgoes := hx s hs
  cases hxs : x s with
  | error d s' =>
    rw [hxs] at hgoes
    cases hgoes with
    | error blames => exact .error blames
  | exhausted => exact .exhausted
  | ok v s' =>
    rw [hxs] at hgoes
    cases hgoes with
    | @ok j _ _ hij hs' hv =>
      rw [← hs.lexemes ha] at hK
      obtain ⟨-, hunspent, ts, hts, hQ⟩ := hy s v s' (hs.proper ha) hK hxs
      rw [hs.lexemes ha, hs'.lexemes ha, ← Scan.said_append_saidFrom hij] at hts
      obtain rfl := List.append_cancel_right hts
      have hlt : i < j := by
        refine Nat.lt_of_le_of_ne hij ?_
        rintro rfl
        rw [Scan.said_self] at hQ
        exact hne v hQ
      have hi : i ≤ a.tokens.length := by
        refine Nat.le_of_not_lt fun hi => ?_
        rw [Scan.said, Scan.slice, List.drop_eq_nil_of_le (Nat.le_of_lt hi), List.take_nil] at hQ
        exact hne v hQ
      have hj := hs'.le_length (hunspent (hs.unspent ha hi))
      exact .ok hij hs' ⟨hv, hlt, hj, hQ⟩

/-- An expression spans just the tokens it is derived from: they begin with token `k` and end before
token `l`. Other trees may span anything. -/
def Exact (a : Scan) : Node → Prop
  | .expr e => ∃ k l, k < l ∧ l ≤ a.tokens.length ∧ Spans a k l e.span ∧
      Derives .loose .expr (a.said k l) e
  | _ => True

/-- A tree in which every expression spans just the tokens it is derived from. -/
def AllExact (a : Scan) (n : Node) : Prop := n.Every (Exact a)

/-- An expression that spans the tokens from number `i` on and before number `j`, and in which every
expression spans just the tokens it is derived from. -/
structure Framed (a : Scan) (i j : Nat) (e : Expr) : Prop where
  span : Spans a i j e.span
  parts : ∀ n ∈ e.children, AllExact a n

/-- An expression that the tokens from number `i` on and before number `j` stand for, as `P` reads
them. -/
structure Stands (a : Scan) (P : List Lexeme → Expr → Prop) (i j : Nat) (e : Expr) : Prop where
  order : i < j
  within : j ≤ a.tokens.length
  framed : Framed a i j e
  derived : P (a.said i j) e

/-- A production whose results satisfy `Q`, wherever it begins. -/
def Grants (a : Scan) (Q : α → Prop) (x : Parser α) : Prop := ∀ i, Lays a i x fun _ v => Q v

/-- A production of expressions that span what they take in. -/
def Framing (a : Scan) (x : Parser Expr) : Prop := ∀ i, Lays a i x fun j e => Framed a i j e

/-- A production of expressions in which every expression spans just the tokens it is derived
from. -/
abbrev GrantsExpr (a : Scan) (x : Parser Expr) : Prop := Grants a (fun e => AllExact a (.expr e)) x

namespace Stands

variable {a : Scan} {P Q : List Lexeme → Expr → Prop} {i j : Nat} {e : Expr}

theorem mono (h : Stands a P i j e) (hPQ : ∀ ts e, P ts e → Q ts e) : Stands a Q i j e :=
  ⟨h.order, h.within, h.framed, hPQ _ _ h.derived⟩

theorem ofFactor (h : Stands a (Derives .loose .factor) i j e) :
    Stands a (Derives .loose .product) i j e := h.mono fun _ _ => .ofFactor

theorem ofProduct (h : Stands a (Derives .loose .product) i j e) :
    Stands a (Derives .loose .sum) i j e := h.mono fun _ _ => .ofProduct

theorem ofSum (h : Stands a (Derives .loose .sum) i j e) : Stands a (Derives .loose .expr) i j e :=
  h.mono fun _ _ => .ofSum

theorem allExact (h : Stands a (Derives .loose .expr) i j e) : AllExact a (.expr e) :=
  .node ⟨i, j, h.order, h.within, h.framed.span, h.derived⟩ h.framed.parts

end Stands

/-- Of a tree that is no expression it is enough to know its children. -/
theorem AllExact.of_children {a : Scan} {n : Node} (hn : ∀ e, n ≠ .expr e)
    (h : ∀ m ∈ n.children, AllExact a m) : AllExact a n := by
  refine .node ?_ h
  cases n with
  | expr e => exact absurd rfl (hn e)
  | _ => trivial

/-- An operator is no expression. -/
theorem allExact_operator (a : Scan) (o : Operator) : AllExact a (.operator o) :=
  .of_children (by rintro _ ⟨⟩) (by rintro _ ⟨⟩)

/-- An expression that is a token of its own. -/
theorem allExact_token {a : Scan} (ha : Regular a) {i : Nat} {t : Token} {e : Expr}
    (ht : a.token? i = some t) (hk : t.kind ≠ .endOfInput) (hspan : e.span = t.span)
    (hparts : e.children = []) (h : Derives .loose .factor [t.lexeme.said] e) :
    AllExact a (.expr e) := by
  have hget := ha.getElem_of_ne ht hk
  obtain ⟨hi, -⟩ := List.getElem?_eq_some_iff.mp hget
  have hone : Stands a (Derives .loose .factor) i (i + 1) e := by
    refine ⟨Nat.lt_succ_self i, hi, ⟨?_, ?_⟩, ?_⟩
    · rw [hspan]
      exact spans_token ht
    · rw [hparts]
      rintro _ ⟨⟩
    · rw [Scan.said_succ hget]
      exact h
  exact hone.ofFactor.ofProduct.ofSum.allExact

section Productions

variable {a : Scan} (ha : Regular a)
include ha

/-- A production that begins with a name. -/
theorem Lays.name {i : Nat} {f : Ident → Parser β} {Q : Nat → β → Prop}
    (hf : ∀ v : Ident, AllExact a v.node → Lays a (i + 1) (f v) Q) :
    Lays a i (expectName >>= f) Q := by
  refine .bind (P := fun j v => j = i + 1 ∧ AllExact a v.node) ?_ ?_
  · refine .current fun t ht => ?_
    cases hl : t.lexeme with
    | identifier name =>
      refine .andAdvance (.pure ⟨rfl, allExact_token ha ht ?_ rfl rfl ?_⟩)
      · rw [Token.kind, hl]
        rintro ⟨⟩
      · rw [hl]
        exact .name ⟨name, t.span⟩
    | _ => exact .unexpected _
  · rintro j v - ⟨rfl, hv⟩
    exact hf v hv

theorem grants_expectName : Grants a (fun v => AllExact a v.node) expectName := by
  intro i
  have hname : Lays a i (expectName >>= pure) fun _ v => AllExact a v.node :=
    .name ha fun v hv => .pure hv
  rwa [bind_pure] at hname

omit ha

theorem grants_commaList {x : Parser α} {Q : α → Prop} (hx : Grants a Q x) (fuel : Nat) :
    Grants a (fun vs => ∀ v ∈ vs, Q v) (commaList x fuel) := by
  induction fuel with
  | zero => exact fun _ => .exhausted
  | succ fuel ih =>
    refine fun i => (hx i).bind fun j v _ hv => .test (.andAdvance ?_) (.pure (by simpa using hv))
    refine (ih (j + 1)).bind fun k vs _ hvs => .pure ?_
    exact List.forall_mem_cons.mpr ⟨hv, hvs⟩

section Factors

variable {x : Parser Expr} (hx : GrantsExpr a x) (fuel : Nat)

include hx in
theorem grants_arguments :
    Grants a (fun es => ∀ e ∈ es, AllExact a (.expr e)) (arguments x fuel) := by
  rw [arguments_eq]
  refine fun i => .mark (.bind (P := fun _ es => ∀ e ∈ es, AllExact a (.expr e)) (.kind fun k => ?_)
    fun j es _ hes => .mark (.pure hes))
  split
  · exact grants_commaList hx fuel (i + 1)
  · exact .pure (by simp)

include ha

theorem framing_leaf {build : Span → Expr} (hspan : ∀ span, (build span).span = span)
    (hparts : ∀ span, (build span).children = []) : Framing a (leaf build) := by
  refine fun i => .here fun p hp => .andAdvance (.spanned ha.known hp fun span hs => ?_)
  constructor
  · rw [hspan]
    exact hs
  · rw [hparts]
    rintro _ ⟨⟩

include hx in
theorem framing_call : Framing a (call x fuel) := by
  refine fun i => .here fun p hp => .name ha fun callee hcallee => ?_
  refine (grants_arguments hx fuel _).bind fun j es _ hes => .spanned ha.known hp fun span hs => ?_
  refine ⟨hs, List.forall_mem_cons.mpr ⟨hcallee, ?_⟩⟩
  simpa using hes

include hx in
theorem framing_slot (i : Nat) :
    Lays a i (slot x) fun j v => Framed a i j (.element v.1 v.2.1 v.2.2) := by
  refine .here fun p hp => .name ha fun array harray => .mark ?_
  refine (hx _).bind fun j index _ hindex => .mark (.spanned ha.known hp fun span hs => ⟨hs, ?_⟩)
  simpa using ⟨harray, hindex⟩

theorem framing_inputLine : Framing a inputLine := by
  rw [inputLine_eq]
  refine fun i => .here fun p hp => .mark (.mark (.bind (P := fun _ prompt =>
    ∀ q ∈ prompt, AllExact a (Prompt.node q)) ?_ fun j prompt _ hprompt => ?_))
  · refine .current fun t ht => ?_
    split
    · next hk =>
      obtain ⟨text, htext⟩ := Lexeme.exists_of_kind_string hk
      refine .andAdvance (.pure ?_)
      rintro _ ⟨⟩
      refine allExact_token ha ht ?_ rfl rfl ?_
      · rw [hk]
        rintro ⟨⟩
      · rw [htext]
        exact .string _ _
    · exact .pure (by rintro _ ⟨⟩)
  · refine .mark (.spanned ha.known hp fun span hs => ⟨hs, ?_⟩)
    cases prompt with
    | none => rintro _ ⟨⟩
    | some prompt => simpa using hprompt

include hx in
theorem framing_readFile : Framing a (readFile x) := by
  refine fun i => .here fun p hp => .andAdvance (.mark (.name ha fun file hfile => ?_))
  refine .bind (P := fun _ count => ∀ e ∈ count, AllExact a (.expr e)) ?_
    fun j count _ hcount => .mark (.spanned ha.known hp fun span hs => ⟨hs, ?_⟩)
  · refine .test (.andAdvance (.kind fun k => ?_)) (.pure (by rintro _ ⟨⟩))
    split
    · exact (hx _).bind fun j e _ he => .pure (by simpa using he)
    · exact .pure (by rintro _ ⟨⟩)
  · refine List.forall_mem_cons.mpr ⟨hfile, ?_⟩
    simpa using hcount

theorem framing_fileVerb {build : Ident → Span → Expr}
    (hspan : ∀ file span, (build file span).span = span)
    (hparts : ∀ file span, (build file span).children = [file.node]) :
    Framing a (fileVerb build) := by
  refine fun i => .here fun p hp => .andAdvance (.inParens (grants_expectName ha _) ?_)
  refine fun j file _ hfile => .spanned ha.known hp fun span hs => ⟨?_, ?_⟩
  · rw [hspan]
    exact hs
  · rw [hparts]
    simpa using hfile

include hx

theorem framing_conversion {build : Expr → Span → Expr}
    (hspan : ∀ e span, (build e span).span = span)
    (hparts : ∀ e span, (build e span).children = [.expr e]) : Framing a (conversion x build) := by
  refine fun i => .here fun p hp => .andAdvance (.inParens (hx _) fun j e _ he => ?_)
  refine .spanned ha.known hp fun span hs => ⟨?_, ?_⟩
  · rw [hspan]
    exact hs
  · rw [hparts]
    simpa using he

theorem framing_negation {op : Op} : Framing a (negation op x) := by
  refine fun i => .here fun p hp => .bind (P := fun _ _ => True) ?_ fun j o _ _ => ?_
  · exact .current fun t _ => .andAdvance (.pure trivial)
  · refine (hx j).bind fun k e _ he => .spanned ha.known hp fun span hs => ⟨hs, ?_⟩
    simpa using ⟨allExact_operator a o, he⟩

theorem framing_group : Framing a (group x) := by
  refine fun i => .here fun p hp => .inParens (hx _) fun j e _ he => ?_
  refine .spanned ha.known hp fun span hs => ?_
  exact ⟨hs, by simpa using he⟩

variable {y z : Parser Expr} (hy : GrantsExpr a y) (hz : GrantsExpr a z)
include hy

theorem framing_reference (name : String) : Framing a (reference x y fuel name) := by
  refine fun i => .peek fun k => ?_
  split
  · exact framing_call ha hx fuel i
  · exact (framing_slot ha hy i).bind fun _ _ _ h => .pure h
  · exact framing_leaf ha (fun _ => rfl) (fun _ => rfl) i

include hz

theorem framing_factorAt (l : Lexeme) (k : Kind) : Framing a (factorAt x y z fuel l k) := by
  unfold factorAt
  split
  case h_1 | h_2 | h_3 =>
    refine framing_leaf ha (fun _ => ?_) fun _ => ?_ <;> unfold literalOf <;> split <;> rfl
  case h_4 => exact framing_reference ha hx fuel hy _
  case h_5 | h_6 => exact framing_leaf ha (fun _ => rfl) fun _ => rfl
  case h_7 => exact framing_group ha hx
  case h_8 | h_9 => exact framing_negation ha hz
  case h_10 => exact framing_inputLine ha
  case h_11 | h_12 | h_13 => exact framing_conversion ha hx (fun _ _ => rfl) fun _ _ => rfl
  case h_14 => exact framing_readFile ha hx
  case h_15 | h_16 => exact framing_fileVerb ha (fun _ _ => rfl) fun _ _ => rfl
  case h_17 => exact fun _ => .unexpected _

end Factors

/-- A production of expressions whose tokens stand for them, as `P` reads them. -/
def Standing (a : Scan) (P : List Lexeme → Expr → Prop) (x : Parser Expr) : Prop :=
  ∀ i, Lays a i x fun j e => Stands a P i j e

theorem Standing.grants {x : Parser Expr} (hx : Standing a (Derives .loose .expr) x) :
    GrantsExpr a x :=
  fun i => (hx i).mono fun _ _ _ h => h.allExact

include ha

/-- A production that builds expressions of a category, and whose results span what they take in. -/
theorem Lays.standing {x : Parser Expr} {i : Nat} {K : List Lexeme → Prop}
    {P : List Lexeme → Expr → Prop} (hx : Lays a i x fun j e => Framed a i j e) (hy : Yields K x P)
    (hK : K (a.saidFrom i)) (hne : ∀ e, ¬ P [] e) : Lays a i x fun j e => Stands a P i j e :=
  (hx.taking ha hy hK hne).mono fun _ _ _ h => ⟨h.2.1, h.2.2.1, h.1, h.2.2.2⟩

section Layers

variable {P R S : List Lexeme → Expr → Prop} {x : Parser Expr} {layer : Layer}
  {op? : Kind → Option Op} (hop : ∀ k op, op? k = some op → ∃ m, k = .mark m)
  (hP : ∀ ts e, P ts e → Derives .loose .expr ts e)
  (hR : ∀ ts e, R ts e → Derives .loose .expr ts e) (hx : Standing a R x)
include hop hP hR hx

/-- An operator that is applied to what comes before it and what comes after it. -/
theorem Lays.applied {i j : Nat} {p : Position} {left : Expr} {t : Token} {op : Op}
    (hp : Starts a i p) (hleft : Stands a P i j left) (ht : a.token? j = some t)
    (hk : op? t.kind = some op)
    (hstep : ∀ {m us r} opSpan span, op? (.mark m) = some op → R us r →
      S (a.said i j ++ .of m :: us) (.binary layer left ⟨op, opSpan⟩ r span))
    {f : Expr → Parser β} {Q : Nat → β → Prop}
    (hf : ∀ k e, Stands a S i k e → Lays a k (f e) Q) :
    Lays a j (operator op >>= fun o => x >>= fun right => Parser.finish p >>= fun span =>
      f (.binary layer left o right span)) Q := by
  obtain ⟨m, hm⟩ := hop _ _ hk
  have hget : a.tokens[j]? = some t := ha.getElem_of_ne ht (by rw [hm]; rintro ⟨⟩)
  have hsaid : t.lexeme.said = .of m := said_of_kind_mark hm
  refine .bind (P := fun k o => k = j + 1 ∧ o.op = op) ?_ ?_
  · exact .current fun t _ => .andAdvance (.pure ⟨rfl, rfl⟩)
  · rintro _ ⟨op, opSpan⟩ - ⟨rfl, rfl⟩
    refine (hx (j + 1)).bind fun k right _ hright => .finish ha.known hp fun span hs => hf k _ ?_
    have hij := hleft.order
    have hjk := hright.order
    constructor
    · omega
    · exact hright.within
    · refine ⟨hs, ?_⟩
      have hsound := (hleft.mono hP).allExact
      have hsound' := (hright.mono hR).allExact
      simpa using ⟨hsound, allExact_operator a _, hsound'⟩
    · -- the tokens are those of the left operand, the operator and those of the right operand
      have hright' : a.said j k = .of m :: a.said (j + 1) k := by
        rw [← Scan.said_append (Nat.le_succ j) (Nat.le_of_lt hjk), Scan.said_succ hget, hsaid]
        rfl
      rw [← Scan.said_append (Nat.le_of_lt hij) (by omega : j ≤ k), hright']
      rw [hm] at hk
      exact hstep opSpan span hk hright.derived

/-- The rest of a layer: each operator takes what comes before it as its left operand. -/
theorem standing_chain (fuel : Nat)
    (hstep : ∀ {m op ts us l r} opSpan span, P ts l → op? (.mark m) = some op → R us r →
      P (ts ++ .of m :: us) (.binary layer l ⟨op, opSpan⟩ r span))
    {i j : Nat} {p : Position} (hp : Starts a i p) {left : Expr} (hleft : Stands a P i j left) :
    Lays a j (chain layer op? x p fuel left) fun k e => Stands a P i k e := by
  induction fuel generalizing j left with
  | zero => exact .exhausted
  | succ fuel ih =>
    refine .gets fun s hs => ?_
    split
    · exact .pure hleft
    · next op hk =>
      exact .applied ha hop hP hR hx hp hleft hs.current hk
        (fun opSpan span hm hr => hstep opSpan span hleft.derived hm hr) fun _ _ h => ih h

end Layers

section Expressions

variable {x : Parser Expr} (hx : Standing a (Derives .loose .factor) x) (fuel : Nat)
include hx

theorem standing_productFrom {i j : Nat} {p : Position} (hp : Starts a i p) {left : Expr}
    (hleft : Stands a (Derives .loose .product) i j left) :
    Lays a j (productFrom x fuel left p) fun k e => Stands a (Derives .loose .product) i k e := by
  refine standing_chain ha (fun _ _ => exists_mark_of_multiplicativeOp)
    (fun _ _ h => .ofSum (.ofProduct h)) (fun _ _ h => .ofSum (.ofProduct (.ofFactor h))) hx fuel ?_
    hp hleft
  intro m op ts us l r opSpan span hl hm hr
  exact .multiply opSpan span hl hm hr

theorem standing_product : Standing a (Derives .loose .product) (product x fuel) :=
  fun i => .here fun _ hp => (hx i).bind fun _ _ _ h =>
    standing_productFrom ha hx fuel hp h.ofFactor

theorem standing_sumFrom {i j : Nat} {p : Position} (hp : Starts a i p) {left : Expr}
    (hleft : Stands a (Derives .loose .sum) i j left) :
    Lays a j (sumFrom x fuel left p) fun k e => Stands a (Derives .loose .sum) i k e := by
  refine standing_chain ha (fun _ _ => exists_mark_of_additiveOp) (fun _ _ h => .ofSum h)
    (fun _ _ h => .ofSum (.ofProduct h)) (standing_product ha hx fuel) fuel ?_ hp hleft
  intro m op ts us l r opSpan span hl hm hr
  exact .add opSpan span hl hm hr

theorem standing_sum : Standing a (Derives .loose .sum) (sum x fuel) :=
  fun i => .here fun _ hp => (standing_product ha hx fuel i).bind fun _ _ _ h =>
    standing_sumFrom ha hx fuel hp h.ofProduct

theorem standing_comparisonFrom {i j : Nat} {p : Position} (hp : Starts a i p) {left : Expr}
    (hleft : Stands a (Derives .loose .sum) i j left) :
    Lays a j (comparisonFrom x fuel left p) fun k e => Stands a (Derives .loose .expr) i k e := by
  refine .gets fun s hs => ?_
  split
  · exact .pure hleft.ofSum
  · next op hk =>
    refine .applied (f := pure) ha (fun _ _ => exists_mark_of_relationalOp) (fun _ _ h => .ofSum h)
      (fun _ _ h => .ofSum h) (standing_sum ha hx fuel) hp hleft hs.current hk ?_
      fun _ _ h => .pure h
    intro m us r opSpan span hm hr
    exact .compare opSpan span hleft.derived hm hr

theorem standing_comparison : Standing a (Derives .loose .expr) (comparison x fuel) :=
  fun i => .here fun _ hp => (standing_sum ha hx fuel i).bind fun _ _ _ h =>
    standing_comparisonFrom ha hx fuel hp h

theorem standing_comparisonAfter {i j : Nat} {p : Position} (hp : Starts a i p) {left : Expr}
    (hleft : Stands a (Derives .loose .factor) i j left) :
    Lays a j (comparisonAfter x fuel left p) fun k e => Stands a (Derives .loose .expr) i k e := by
  refine (standing_productFrom ha hx fuel hp hleft.ofFactor).bind fun _ _ _ h => ?_
  refine (standing_sumFrom ha hx fuel hp h.ofProduct).bind fun _ _ _ h => ?_
  exact standing_comparisonFrom ha hx fuel hp h

end Expressions

/-- The tokens of a factor stand for it, and so do those of every expression in it. -/
theorem standing_factor (fuel : Nat) : Standing a (Derives .loose .factor) (factor fuel) := by
  have hne : ∀ e : Expr, ¬ Derives .loose .factor [] e := fun _ h => h.ne_nil rfl rfl
  induction fuel with
  | zero => exact fun _ => .exhausted
  | succ fuel ih =>
    intro i
    have hexpr := (standing_comparison ha ih fuel).grants
    have hsum : GrantsExpr a (sum (factor fuel) fuel) := fun i =>
      (standing_sum ha ih fuel i).mono fun _ _ _ h => h.ofSum.allExact
    have hfactor : GrantsExpr a (factor fuel) := fun i =>
      (ih i).mono fun _ _ _ h => h.ofFactor.ofProduct.ofSum.allExact
    refine .standing (K := fun _ => True) ha ?_ (builds_factor (fuel + 1) _) trivial hne
    rw [factor, factorWith_eq]
    exact .current fun t _ => framing_factorAt ha hexpr fuel hsum hfactor _ _ i

theorem standing_expression (fuel : Nat) :
    Standing a (Derives .loose .expr) (expression fuel) :=
  standing_comparison ha (standing_factor ha fuel) fuel

theorem grants_expression (fuel : Nat) : GrantsExpr a (expression fuel) :=
  (standing_expression ha fuel).grants

theorem grants_sumExpr (fuel : Nat) : GrantsExpr a (sumExpr fuel) :=
  fun i => (standing_sum ha (standing_factor ha fuel) fuel i).mono fun _ _ _ h => h.ofSum.allExact

end Productions

end Syntax

end Kotoba
