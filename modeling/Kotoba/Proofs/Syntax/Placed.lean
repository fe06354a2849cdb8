import Kotoba.Proofs.Syntax.Parsed
import Kotoba.Proofs.Syntax.Part
import Kotoba.Proofs.Token.Fault

/-! Where trees stand. Every part of a tree that is parsed spans a stretch of tokens, in which its
children lie one after another; and a failure is reported at a token or at the fault that ends
them. -/
namespace Kotoba

namespace Token

/-- A scan in which the ends of tokens are known. -/
def Scan.Known (a : Scan) : Prop := ∀ i t, a.token? i = some t → t.stop.isUnknown = false

theorem known_tokenize (limits : Limits) (text : Bytes) : (tokenize limits text).Known := by
  intro i t ht
  exact (tokenize_ordered (Nat.le_refl i) ht ht).isUnknown_stop

end Token

/-- Whether a tree has nothing in it. -/
def Node.isBlank : Node → Bool
  | .body b => b.statements.isEmpty
  | .program p => p.isEmpty
  | _ => false

namespace Syntax

open Token (Scan Kind)
open Kotoba.Syntax.Parser

variable {α β : Type}

/-- Where token `i` starts. -/
def Starts (a : Scan) (i : Nat) (p : Position) : Prop := ∃ t, a.token? i = some t ∧ p = t.start

/-- The span of the tokens from number `i` on and before number `j`. It starts with the first of
them and stops with the one before `j`, also if there is none between. -/
structure Spans (a : Scan) (i j : Nat) (span : Span) : Prop where
  starts : Starts a i span.start
  stops : j = 0 ∧ span.stop = span.start ∨
    ∃ t, 0 < j ∧ a.token? (j - 1) = some t ∧ span.stop = t.stop

/-- Trees that lie one after another among the tokens from number `i` on and before number `j`: each
spans a stretch of tokens, and its children lie in that. A tree that spans none stands between two
tokens which no other of them takes. -/
inductive Lies (a : Scan) : Nat → Nat → List Node → Prop
  | nil {i j : Nat} (order : i ≤ j) : Lies a i j []
  | cons {i j k l m : Nat} {n : Node} {rest : List Node} (before : i ≤ k) (order : k ≤ l)
    (behind : l ≤ m) (blank : k = l → n.isBlank ∧ i < k ∧ l < m)
    (known : ∀ o, n = .operator o → o.op ∈ Op.known) (span : Spans a k l n.span)
    (inner : Lies a k l n.children) (after : Lies a m j rest) : Lies a i j (n :: rest)

/-- A tree that spans the tokens from number `k` on and before number `l`. -/
structure Stretches (a : Scan) (k l : Nat) (n : Node) : Prop where
  order : k ≤ l
  blank : k = l → n.isBlank
  known : ∀ o, n = .operator o → o.op ∈ Op.known
  span : Spans a k l n.span
  inner : Lies a k l n.children

/-- A tree that spans tokens from number `i` on and before number `j`. -/
def Rests (a : Scan) (i j : Nat) (n : Node) : Prop := ∃ k l, i ≤ k ∧ l ≤ j ∧ Stretches a k l n

/-- A tree that starts at one and stops at one of the tokens from number `i` on and before number
`j`. -/
def Sits (a : Scan) (i j : Nat) (n : Node) : Prop :=
  ∃ k l, i ≤ k ∧ k < j ∧ i < l ∧ l ≤ j ∧ Stretches a k l n

namespace Sits

variable {a : Scan} {i j : Nat} {n : Node}

theorem mono {i' j' : Nat} (h : Sits a i j n) (hi : i' ≤ i) (hj : j ≤ j') : Sits a i' j' n := by
  obtain ⟨k, l, hik, hkj, hil, hlj, hextent⟩ := h
  exact ⟨k, l, by omega, by omega, by omega, by omega, hextent⟩

theorem rests (h : Sits a i j n) : Rests a i j n := by
  obtain ⟨k, l, hik, -, -, hlj, hextent⟩ := h
  exact ⟨k, l, hik, hlj, hextent⟩

end Sits

namespace Lies

variable {a : Scan} {i j k : Nat} {n : Node} {ms ns : List Node}

theorem le (h : Lies a i j ns) : i ≤ j := by
  induction h with
  | nil order => exact order
  | cons before order behind _ _ _ _ _ _ ih => omega

theorem mono {i' j' : Nat} (h : Lies a i j ns) (hi : i' ≤ i) (hj : j ≤ j') : Lies a i' j' ns := by
  induction h generalizing i' with
  | nil order => exact .nil (by omega)
  | cons before order behind blank known span inner _ _ ih =>
    refine .cons (by omega) order behind (fun h => ?_) known span inner (ih (Nat.le_refl _) hj)
    obtain ⟨hblank, hbefore, hbehind⟩ := blank h
    exact ⟨hblank, by omega, hbehind⟩

theorem append (hm : Lies a i j ms) (hn : Lies a j k ns) : Lies a i k (ms ++ ns) := by
  induction hm with
  | nil order => exact hn.mono order (Nat.le_refl _)
  | cons before order behind blank known span inner _ _ ih =>
    exact .cons before order behind blank known span inner (ih hn)

theorem node (hij : i < j) (known : ∀ o, n = .operator o → o.op ∈ Op.known)
    (span : Spans a i j n.span) (inner : Lies a i j n.children) : Lies a i j [n] :=
  .cons (Nat.le_refl i) (Nat.le_of_lt hij) (Nat.le_refl j) (fun h => absurd h (Nat.ne_of_lt hij))
    known span inner (.nil (Nat.le_refl j))

theorem sits (h : Lies a i j ns) (hn : n ∈ ns) : Sits a i j n := by
  induction h with
  | nil => cases hn
  | @cons i j k l m _ _ before order behind blank known span inner after _ ih =>
    have hle := after.le
    have hkl : k < l ∨ i < k ∧ l < m := (Nat.lt_or_eq_of_le order).imp_right fun h => (blank h).2
    obtain _ | ⟨_, hn⟩ := hn
    · exact ⟨k, l, before, by omega, by omega, by omega, order, fun h => (blank h).1, known, span,
        inner⟩
    · exact (ih hn).mono (by omega) (Nat.le_refl j)

theorem rests (h : Lies a i j ns) (hn : n ∈ ns) : Rests a i j n := (h.sits hn).rests

/-- Where a tree lies there is a token. -/
theorem lt (h : Lies a i j (n :: ns)) : i < j := by
  obtain ⟨k, l, hik, hkj, -⟩ := h.sits List.mem_cons_self
  exact Nat.lt_of_le_of_lt hik hkj

/-- Of two trees that lie among tokens, one comes after the other. -/
theorem pairwise (h : Lies a i j ns) :
    ns.Pairwise fun m n => ∃ f, i ≤ f ∧ f ≤ j ∧ Sits a i f m ∧ Sits a f j n := by
  induction h with
  | nil => exact .nil
  | @cons i j k l m _ _ before order behind blank known span inner after _ ih =>
    have hle := after.le
    refine .cons (fun n hn => ⟨m, by omega, hle, ?_, after.sits hn⟩) (ih.imp ?_)
    · exact (cons before order behind blank known span inner (.nil (Nat.le_refl m))).sits
        List.mem_cons_self
    · rintro n n' ⟨f, hmf, hfj, hn, hn'⟩
      exact ⟨f, by omega, hfj, hn.mono (by omega) (Nat.le_refl f), hn'⟩

/-- An expression as a statement. -/
theorem act {e : Expr} (h : Lies a i j [.expr e]) : Lies a i j [.stmt (.expr e)] := by
  cases h with
  | @cons _ _ k l _ _ _ before order behind blank known span inner after =>
    have hkl : k < l := Nat.lt_of_le_of_ne order fun h => Bool.false_ne_true (blank h).1
    refine .cons before order behind (fun h => absurd h (Nat.ne_of_lt hkl)) (by rintro _ ⟨⟩) span ?_
      after
    exact .node hkl known span inner

end Lies

namespace Stretches

variable {a : Scan} {i j k l : Nat} {n : Node}

theorem lies (h : Stretches a k l n) (hi : i < k) (hj : l < j) : Lies a i j [n] :=
  .cons (Nat.le_of_lt hi) h.order (Nat.le_of_lt hj) (fun hkl => ⟨h.blank hkl, hi, hj⟩) h.known
    h.span h.inner (.nil (Nat.le_refl j))

theorem rests (h : Stretches a i j n) : Rests a i j n := ⟨i, j, Nat.le_refl i, Nat.le_refl j, h⟩

end Stretches

namespace Rests

variable {a : Scan} {i j : Nat} {n m : Node}

theorem mono {i' j' : Nat} (h : Rests a i j n) (hi : i' ≤ i) (hj : j ≤ j') : Rests a i' j' n := by
  obtain ⟨k, l, hk, hl, hextent⟩ := h
  exact ⟨k, l, by omega, by omega, hextent⟩

/-- Of every part of a tree it is known which tokens it spans. -/
theorem part (h : Rests a i j n) (hm : n.Part m) : Rests a i j m := by
  induction hm with
  | self => exact h
  | child _ hc ih =>
    obtain ⟨k, l, hk, hl, hextent⟩ := ih
    exact (hextent.inner.rests hc).mono hk hl

end Rests

/-- A diagnostic at a token, or at the fault that ends the tokens. -/
def Blames (a : Scan) (d : Diagnostic) : Prop :=
  (∃ i t expected, a.token? i = some t ∧ d = unexpectedAt t expected) ∨
    ∃ f, a.ending = .error f ∧ d = f.diagnostic

/-- A state in which the current token is that with number `i`. -/
structure At (a : Scan) (i : Nat) (s : State) : Prop where
  current : a.token? i = some s.current
  ahead : s.ahead = a.tokens.drop (i + 1)
  ending : s.ending = a.ending
  last : i = 0 ∧ s.lastStop.isUnknown ∨ ∃ t, 0 < i ∧ a.token? (i - 1) = some t ∧ s.lastStop = t.stop

/-- How a production ends that began at token `i`: at another token `j`, with what `P` says of `j`
and the result, or with a failure at a token. -/
inductive Goes (a : Scan) (i : Nat) (P : Nat → α → Prop) : Outcome State Diagnostic α → Prop
  | ok {j : Nat} {v : α} {s : State} (order : i ≤ j) (state : At a j s) (result : P j v) :
    Goes a i P (.ok v s)
  | error {d : Diagnostic} {s : State} (blames : Blames a d) : Goes a i P (.error d s)
  | exhausted : Goes a i P .exhausted

/-- What a production does that begins at token `i`. -/
def Lays (a : Scan) (i : Nat) (x : Parser α) (P : Nat → α → Prop) : Prop :=
  ∀ s, At a i s → Goes a i P (x s)

namespace Lays

variable {a : Scan} {i : Nat} {x : Parser α} {f : α → Parser β} {P : Nat → α → Prop}
  {Q : Nat → β → Prop}

theorem pure {v : α} (h : P i v) : Lays a i (Pure.pure v) P :=
  fun _ hs => .ok (Nat.le_refl i) hs h

theorem bind (hx : Lays a i x P) (hf : ∀ j v, i ≤ j → P j v → Lays a j (f v) Q) :
    Lays a i (x >>= f) Q := by
  intro s hs
  have hxs := hx s hs
  rw [Step.bind_apply]
  generalize x s = o at hxs
  cases hxs with
  | @ok j v s₁ order state result =>
    have hfs := hf j v order result s₁ state
    dsimp only
    generalize f v s₁ = o at hfs
    cases hfs with
    | ok order' state' result' => exact .ok (Nat.le_trans order order') state' result'
    | error blames => exact .error blames
    | exhausted => exact .exhausted
  | error blames => exact .error blames
  | exhausted => exact .exhausted

theorem mono {P' : Nat → α → Prop} (hx : Lays a i x P) (h : ∀ j v, i ≤ j → P j v → P' j v) :
    Lays a i x P' := by
  intro s hs
  have hxs := hx s hs
  generalize x s = o at hxs
  cases hxs with
  | ok order state result => exact .ok order state (h _ _ order result)
  | error blames => exact .error blames
  | exhausted => exact .exhausted

theorem map {g : α → β} (hx : Lays a i x P) (h : ∀ j v, i ≤ j → P j v → Q j (g v)) :
    Lays a i (g <$> x) Q := by
  rw [map_eq_pure_bind]
  exact hx.bind fun j v hj hv => .pure (h j v hj hv)

/-- After a look at the state. -/
theorem gets {g : State → α} (hf : ∀ s, At a i s → Lays a i (f (g s)) Q) :
    Lays a i (Step.gets g >>= f) Q :=
  fun s hs => hf s hs s hs

theorem here {f : Position → Parser β}
    (hf : ∀ p, Starts a i p → Lays a i (f p) Q) :
    Lays a i (Parser.here >>= f) Q :=
  gets fun s hs => hf _ ⟨s.current, hs.current, rfl⟩

theorem current {f : Token → Parser β} (hf : ∀ t, a.token? i = some t → Lays a i (f t) Q) :
    Lays a i (Parser.current >>= f) Q :=
  gets fun s hs => hf s.current hs.current

theorem kind {f : Kind → Parser β} (hf : ∀ k, Lays a i (f k) Q) :
    Lays a i (Parser.kind >>= f) Q := gets fun _ _ => hf _

/-- Productions chosen by whether the current token is of a kind. -/
theorem test {k : Kind} {p q : Parser β} (hp : Lays a i p Q) (hq : Lays a i q Q) :
    Lays a i (Parser.at? k >>= fun b => if b then p else q) Q := by
  refine gets fun s _ => ?_
  split
  · exact hp
  · exact hq

theorem enter {production : String} {f : Unit → Parser β} (hf : Lays a i (f ()) Q) :
    Lays a i (Parser.enter production >>= f) Q :=
  fun _ hs => hf _ ⟨hs.current, hs.ahead, hs.ending, hs.last⟩

theorem unexpected (expected : List Bytes) : Lays a i (Parser.unexpected expected) P :=
  fun s hs => .error (.inl ⟨i, s.current, expected, hs.current, rfl⟩)

theorem exhausted : Lays a i Step.exhausted P := fun _ _ => .exhausted

end Lays

theorem token?_of_drop_cons {a : Scan} {i : Nat} {t : Token} {ts : List Token}
    (h : a.tokens.drop i = t :: ts) : a.token? i = some t ∧ ts = a.tokens.drop (i + 1) := by
  have hget : a.tokens[i]? = some t := by
    rw [← List.head?_drop, h]
    rfl
  refine ⟨by simp only [Scan.token?, hget], ?_⟩
  rw [← List.tail_drop, h]
  rfl

theorem token?_of_drop_nil {a : Scan} {i : Nat} {e : Token} (h : a.tokens.drop i = [])
    (he : a.ending = .ok e) : a.token? i = some e :=
  (Scan.token?_of_length_le (List.drop_eq_nil_iff.mp h)).mpr he

namespace Lays

variable {a : Scan} {i : Nat} {Q : Nat → β → Prop}

theorem advance : Lays a i Parser.advance fun j _ => j = i + 1 := by
  intro s hs
  have hlast : ∃ t, 0 < i + 1 ∧ a.token? (i + 1 - 1) = some t ∧ s.current.stop = t.stop :=
    ⟨s.current, Nat.succ_pos i, hs.current, rfl⟩
  have hahead := hs.ahead
  cases h : s.ahead with
  | cons t ts =>
    rw [h] at hahead
    obtain ⟨ht, hts⟩ := token?_of_drop_cons hahead.symm
    simp only [Parser.advance, h]
    exact .ok (Nat.le_succ i) ⟨ht, hts, (noteScan_ending s t).trans hs.ending, .inr hlast⟩ rfl
  | nil =>
    rw [h] at hahead
    cases he : s.ending with
    | error fault =>
      simp only [Parser.advance, h, he]
      exact .error (.inr ⟨fault, hs.ending ▸ he, rfl⟩)
    | ok e =>
      simp only [Parser.advance, h, he]
      refine .ok (Nat.le_succ i) ⟨token?_of_drop_nil hahead.symm (hs.ending ▸ he), ?_,
        (noteScan_ending s e).trans hs.ending, .inr hlast⟩ rfl
      rw [noteScan_ahead, h, ← List.tail_drop, ← hahead]
      rfl

/-- A production whose first token is passed over. -/
theorem andAdvance {f : Unit → Parser β} (hf : Lays a (i + 1) (f ()) Q) :
    Lays a i (Parser.advance >>= f) Q := by
  refine advance.bind ?_
  rintro j ⟨⟩ - rfl
  exact hf

theorem peek {f : Kind → Parser β} (hf : ∀ k, Lays a i (f k) Q) :
    Lays a i (Parser.peek >>= f) Q := by
  refine bind (P := fun j _ => j = i) (fun s hs => ?_) fun j k _ hj => hj ▸ hf k
  have hnote : ∀ t, At a i { s.noteScan t with peeked := true } := fun t =>
    ⟨(noteScan_current s t).symm ▸ hs.current, (noteScan_ahead s t).trans hs.ahead,
      (noteScan_ending s t).trans hs.ending, (noteScan_lastStop s t).symm ▸ hs.last⟩
  unfold Parser.peek
  split
  · exact .ok (Nat.le_refl i) (hnote _) rfl
  · exact .ok (Nat.le_refl i) (hnote _) rfl
  · next he => exact .error (.inr ⟨_, hs.ending ▸ he, rfl⟩)

/-- A production that begins with a token of a kind. -/
theorem mark {k : Kind} {f : Unit → Parser β} (hf : Lays a (i + 1) (f ()) Q) :
    Lays a i (Parser.expect k >>= f) Q := by
  refine bind (P := fun j _ => j = i + 1) (test advance (unexpected _)) ?_
  rintro j ⟨⟩ - rfl
  exact hf

end Lays

/-- A production that yields trees which lie where it took in tokens. -/
def Places (a : Scan) (nodes : α → List Node) (x : Parser α) : Prop :=
  ∀ i, Lays a i x fun j v => Lies a i j (nodes v)

section Productions

variable {a : Scan} (ha : a.Known)
include ha

theorem spans_finish {i j : Nat} {p : Position} {s : State} (hp : Starts a i p) (hs : At a j s) :
    Spans a i j ⟨p, if s.lastStop.isUnknown then p else s.lastStop⟩ := by
  refine ⟨hp, ?_⟩
  obtain ⟨hj, hlast⟩ | ⟨t, hj, ht, hlast⟩ := hs.last
  · exact .inl ⟨hj, by rw [if_pos hlast]⟩
  · refine .inr ⟨t, hj, ht, ?_⟩
    rw [hlast, if_neg (by simp [ha _ _ ht])]

theorem Lays.finish {i j : Nat} {p : Position} {f : Span → Parser β} {Q : Nat → β → Prop}
    (hp : Starts a i p) (hf : ∀ span, Spans a i j span → Lays a j (f span) Q) :
    Lays a j (Parser.finish p >>= f) Q :=
  .gets fun _ hs => hf _ (spans_finish ha hp hs)

/-- The end of a production: a tree is made, which spans what was consumed. -/
theorem Lays.spanned {i j : Nat} {p : Position} {g : Span → β} {Q : Nat → β → Prop}
    (hp : Starts a i p) (h : ∀ span, Spans a i j span → Q j (g span)) :
    Lays a j (Parser.finish p >>= fun span => Pure.pure (g span)) Q :=
  .finish ha hp fun span hspan => .pure (h span hspan)

omit ha

theorem spans_token {i : Nat} {t : Token} (ht : a.token? i = some t) :
    Spans a i (i + 1) t.span :=
  ⟨⟨t, ht, rfl⟩, .inr ⟨t, Nat.succ_pos i, ht, rfl⟩⟩

theorem lays_expectName {i : Nat} :
    Lays a i expectName fun j v => j = i + 1 ∧ Lies a i (i + 1) [v.node] := by
  refine .current fun t ht => ?_
  split
  · refine .andAdvance (.pure ⟨rfl, ?_⟩)
    exact .node (Nat.lt_succ_self i) (by rintro _ ⟨⟩) (spans_token ht) (.nil (Nat.le_succ i))
  · exact .unexpected _

/-- A production that begins with a name. -/
theorem Lays.ident {i : Nat} {f : Ident → Parser β} {Q : Nat → β → Prop}
    (hf : ∀ v : Ident, Lies a i (i + 1) [v.node] → Lays a (i + 1) (f v) Q) :
    Lays a i (expectName >>= f) Q := by
  refine lays_expectName.bind ?_
  rintro j v - ⟨rfl, hv⟩
  exact hf v hv

theorem lays_operator {i : Nat} {op : Op} (hop : op ∈ Op.known) {f : Operator → Parser β}
    {Q : Nat → β → Prop}
    (hf : ∀ o : Operator, Lies a i (i + 1) [.operator o] → Lays a (i + 1) (f o) Q) :
    Lays a i (operator op >>= f) Q := by
  refine .bind (P := fun j o => j = i + 1 ∧ Lies a i (i + 1) [.operator o]) ?_ ?_
  · refine .current fun t ht => .andAdvance (.pure ⟨rfl, ?_⟩)
    refine .node (Nat.lt_succ_self i) ?_ (spans_token ht) (.nil (Nat.le_succ i))
    rintro _ ⟨⟩
    exact hop
  · rintro j o - ⟨rfl, ho⟩
    exact hf o ho

theorem lays_skipSemicolon {i : Nat} : Lays a i skipSemicolon fun _ _ => True :=
  .test (Lays.advance.mono fun _ _ _ _ => trivial) (.pure trivial)

/-- A production in parentheses. -/
theorem Lays.inParens {i : Nat} {x : Parser α} {P : Nat → α → Prop} (hx : Lays a (i + 1) x P)
    {f : α → Parser β} {Q : Nat → β → Prop}
    (hf : ∀ j v, i < j → P j v → Lays a (j + 1) (f v) Q) :
    Lays a i (parenthesized x >>= f) Q := by
  unfold parenthesized
  simp only [bind_assoc, pure_bind]
  exact .mark (hx.bind fun j v hj hv => .mark (hf j v hj hv))

theorem places_commaList {node : α → Node} {x : Parser α} (hx : Places a (fun v => [node v]) x)
    (fuel : Nat) : Places a (List.map node) (commaList x fuel) := by
  induction fuel with
  | zero => exact fun _ => .exhausted
  | succ fuel ih =>
    refine fun i => (hx i).bind fun j v hj hv => .test (.andAdvance ?_) (.pure hv)
    refine (ih (j + 1)).bind fun k vs hk hvs => .pure ?_
    exact hv.append (hvs.mono (Nat.le_succ j) (Nat.le_refl k))

/-- A production of expressions. -/
abbrev PlacesExpr (a : Scan) (x : Parser Expr) : Prop := Places a (fun e => [.expr e]) x

include ha

theorem places_leaf {build : Span → Expr} (hspan : ∀ span, (build span).span = span)
    (hchildren : ∀ span, (build span).children = []) : PlacesExpr a (leaf build) := by
  refine fun i => .here fun p hp => .andAdvance (.spanned ha hp fun span hs => ?_)
  refine .node (Nat.lt_succ_self i) (by rintro _ ⟨⟩) ?_ ?_
  · rw [Node.span, hspan]
    exact hs
  · rw [Node.children, hchildren]
    exact .nil (Nat.le_succ i)

section Expressions

variable {x : Parser Expr} (hx : PlacesExpr a x) (fuel : Nat)
include hx

/-- The rest of a layer: each operator takes what comes before it as its left operand. -/
theorem lays_chain {layer : Layer} {op? : Kind → Option Op}
    (hop : ∀ k op, op? k = some op → op ∈ Op.known) {i j : Nat} {p : Position}
    (hp : Starts a i p) {left : Expr} (hleft : Lies a i j [.expr left]) :
    Lays a j (chain layer op? x p fuel left) fun k e => Lies a i k [.expr e] := by
  induction fuel generalizing j left with
  | zero => exact .exhausted
  | succ fuel ih =>
    refine .kind fun k => ?_
    split
    · exact .pure hleft
    · next op hk =>
      refine lays_operator (hop _ _ hk) fun o ho => (hx (j + 1)).bind fun l right hl hright => ?_
      refine .finish ha hp fun span hs => ih ?_
      have hij := hleft.le
      exact .node (by omega) (by rintro _ ⟨⟩) hs (hleft.append (ho.append hright))

theorem lays_productFrom {i j : Nat} {p : Position} (hp : Starts a i p) {left : Expr}
    (hleft : Lies a i j [.expr left]) :
    Lays a j (productFrom x fuel left p) fun k e => Lies a i k [.expr e] := by
  refine lays_chain ha hx fuel (fun k op hk => ?_) hp hleft
  unfold multiplicativeOp? at hk
  split at hk <;> cases hk <;> decide

theorem places_product : PlacesExpr a (product x fuel) :=
  fun i => .here fun _ hp => (hx i).bind fun _ _ _ hv => lays_productFrom ha hx fuel hp hv

theorem lays_sumFrom {i j : Nat} {p : Position} (hp : Starts a i p) {left : Expr}
    (hleft : Lies a i j [.expr left]) :
    Lays a j (sumFrom x fuel left p) fun k e => Lies a i k [.expr e] := by
  refine lays_chain ha (places_product ha hx fuel) fuel (fun k op hk => ?_) hp hleft
  unfold additiveOp? at hk
  split at hk <;> cases hk <;> decide

theorem places_sum : PlacesExpr a (sum x fuel) :=
  fun i => .here fun _ hp => (places_product ha hx fuel i).bind fun _ _ _ hv =>
    lays_sumFrom ha hx fuel hp hv

theorem lays_comparisonFrom {i j : Nat} {p : Position} (hp : Starts a i p) {left : Expr}
    (hleft : Lies a i j [.expr left]) :
    Lays a j (comparisonFrom x fuel left p) fun k e => Lies a i k [.expr e] := by
  refine .kind fun k => ?_
  split
  · exact .pure hleft
  · next op hk =>
    have hop : op ∈ Op.known := by
      unfold relationalOp? at hk
      split at hk <;> cases hk <;> decide
    refine lays_operator hop fun o ho => (places_sum ha hx fuel (j + 1)).bind fun l r hl hr => ?_
    refine .spanned ha hp fun span hs => ?_
    have hij := hleft.le
    exact .node (by omega) (by rintro _ ⟨⟩) hs (hleft.append (ho.append hr))

theorem places_comparison : PlacesExpr a (comparison x fuel) :=
  fun i => .here fun _ hp => (places_sum ha hx fuel i).bind fun _ _ _ hv =>
    lays_comparisonFrom ha hx fuel hp hv

theorem lays_comparisonAfter {i j : Nat} {p : Position} (hp : Starts a i p) {left : Expr}
    (hleft : Lies a i j [.expr left]) :
    Lays a j (comparisonAfter x fuel left p) fun k e => Lies a i k [.expr e] :=
  (lays_productFrom ha hx fuel hp hleft).bind fun _ _ _ h =>
    (lays_sumFrom ha hx fuel hp h).bind fun _ _ _ h => lays_comparisonFrom ha hx fuel hp h

omit ha in
theorem places_arguments : Places a (List.map .expr) (arguments x fuel) := by
  rw [arguments_eq]
  refine fun i => .mark (.bind (P := fun j es => Lies a (i + 1) j (es.map .expr))
    (.kind fun k => ?_) fun j es hj hes => ?_)
  · split
    · exact places_commaList hx fuel (i + 1)
    · exact .pure (.nil (Nat.le_refl _))
  · exact .mark (.pure (hes.mono (Nat.le_succ i) (Nat.le_succ j)))

theorem places_call : PlacesExpr a (call x fuel) := by
  refine fun i => .here fun p hp => .ident fun callee hcallee => ?_
  refine (places_arguments hx fuel (i + 1)).bind fun j es hj hes => .spanned ha hp fun span hs => ?_
  exact .node hj (by rintro _ ⟨⟩) hs (hcallee.append hes)

/-- An array with an index, as an expression. -/
def slotNode (slot : Ident × Expr × Span) : Node := .expr (.element slot.1 slot.2.1 slot.2.2)

theorem places_slot : Places a (fun v => [slotNode v]) (slot x) := by
  refine fun i => .here fun p hp => .ident fun array harray => .mark ?_
  refine (hx _).bind fun j index hj hindex => .mark (.spanned ha hp fun span hs => ?_)
  refine .node (by omega) (by rintro _ ⟨⟩) hs (harray.append ?_)
  exact hindex.mono (Nat.le_succ _) (Nat.le_succ _)

omit hx in
theorem places_inputLine : PlacesExpr a inputLine := by
  rw [inputLine_eq]
  refine fun i => .here fun p hp => .mark (.mark (.bind (P := fun j prompt =>
    Lies a (i + 1 + 1) j (prompt.map Prompt.node).toList) ?_ fun j prompt hj hprompt => ?_))
  · refine .current fun t ht => ?_
    split
    · refine .andAdvance (.pure ?_)
      exact .node (Nat.lt_succ_self _) (by rintro _ ⟨⟩) (spans_token ht) (.nil (Nat.le_succ _))
    · exact .pure (.nil (Nat.le_refl _))
  · refine .mark (.spanned ha hp fun span hs => ?_)
    exact .node (by omega) (by rintro _ ⟨⟩) hs (hprompt.mono (by omega) (Nat.le_succ j))

theorem places_readFile : PlacesExpr a (readFile x) := by
  refine fun i => .here fun p hp => .andAdvance (.mark (.ident fun file hfile => ?_))
  refine .bind (P := fun j count => Lies a (i + 1 + 1 + 1) j (count.map .expr).toList) ?_
    fun j count hj hcount => .mark (.spanned ha hp fun span hs => ?_)
  · refine .test (.andAdvance (.kind fun k => ?_)) (.pure (.nil (Nat.le_refl _)))
    split
    · exact (hx _).bind fun j e hj he => .pure (he.mono (Nat.le_succ _) (Nat.le_refl j))
    · exact .pure (.nil (Nat.le_succ _))
  · refine .node (by omega) (by rintro _ ⟨⟩) hs ?_
    exact (hfile.mono (by omega) (Nat.le_refl _)).append
      (hcount.mono (Nat.le_refl _) (Nat.le_succ j))

omit hx in
theorem places_fileVerb {build : Ident → Span → α} {node : α → Node}
    (hspan : ∀ file span, (node (build file span)).span = span)
    (hchildren : ∀ file span, (node (build file span)).children = [file.node])
    (hop : ∀ file span o, node (build file span) ≠ .operator o) :
    Places a (fun v => [node v]) (fileVerb build) := by
  have hname : Places a (fun v : Ident => [v.node]) expectName := fun i =>
    lays_expectName.mono fun j v _ h => h.1 ▸ h.2
  refine fun i => .here fun p hp => .andAdvance (.inParens (hname _) fun j file hj hfile => ?_)
  refine .spanned ha hp fun span hs => ?_
  refine .node (by omega) (fun o h => absurd h (hop file span o)) ?_ ?_
  · rw [hspan]
    exact hs
  · rw [hchildren]
    exact hfile.mono (by omega) (Nat.le_succ j)

theorem places_conversion {build : Expr → Span → Expr}
    (hspan : ∀ e span, (build e span).span = span)
    (hchildren : ∀ e span, (build e span).children = [.expr e]) :
    PlacesExpr a (conversion x build) := by
  refine fun i => .here fun p hp => .andAdvance (.inParens (hx _) fun j e hj he => ?_)
  refine .spanned ha hp fun span hs => .node (by omega) (by rintro _ ⟨⟩) ?_ ?_
  · rw [Node.span, hspan]
    exact hs
  · rw [Node.children, hchildren]
    exact he.mono (by omega) (Nat.le_succ j)

theorem places_negation {op : Op} (hop : op ∈ Op.known) : PlacesExpr a (negation op x) := by
  refine fun i => .here fun p hp => lays_operator hop fun o ho => ?_
  refine (hx _).bind fun j e hj he => .spanned ha hp fun span hs => ?_
  exact .node hj (by rintro _ ⟨⟩) hs (ho.append he)

theorem places_group : PlacesExpr a (group x) := by
  refine fun i => .here fun p hp => .inParens (hx _) fun j e hj he => ?_
  refine .spanned ha hp fun span hs => ?_
  exact .node (by omega) (by rintro _ ⟨⟩) hs (he.mono (Nat.le_succ i) (Nat.le_succ j))

theorem places_reference {y : Parser Expr} (hy : PlacesExpr a y) (name : String) :
    PlacesExpr a (reference x y fuel name) := by
  refine fun i => .peek fun k => ?_
  split
  · exact places_call ha hx fuel i
  · exact (places_slot ha hy i).bind fun _ _ _ h => .pure h
  · exact places_leaf ha (fun _ => rfl) (fun _ => rfl) i

theorem places_factorAt {y z : Parser Expr} (hy : PlacesExpr a y) (hz : PlacesExpr a z)
    (l : Token.Lexeme) (k : Kind) : PlacesExpr a (factorAt x y z fuel l k) := by
  unfold factorAt
  split
  case h_1 | h_2 | h_3 =>
    refine places_leaf ha (fun _ => ?_) fun _ => ?_ <;> unfold literalOf <;> split <;> rfl
  case h_4 => exact places_reference ha hx fuel hy _
  case h_5 | h_6 => exact places_leaf ha (fun _ => rfl) fun _ => rfl
  case h_7 => exact places_group ha hx
  case h_8 | h_9 => exact places_negation ha hz (by decide)
  case h_10 => exact places_inputLine ha
  case h_11 | h_12 | h_13 => exact places_conversion ha hx (fun _ _ => rfl) fun _ _ => rfl
  case h_14 => exact places_readFile ha hx
  case h_15 | h_16 =>
    exact places_fileVerb ha (fun _ _ => rfl) (fun _ _ => rfl) (by rintro _ _ _ ⟨⟩)
  case h_17 => exact fun _ => .unexpected _

end Expressions

theorem places_factor (fuel : Nat) : PlacesExpr a (factor fuel) := by
  induction fuel with
  | zero => exact fun _ => .exhausted
  | succ fuel ih =>
    intro i
    rw [factor, factorWith_eq]
    exact .current fun t _ => places_factorAt ha (places_comparison ha ih fuel) fuel
      (places_sum ha ih fuel) ih _ _ i

theorem places_sumExpr (fuel : Nat) : PlacesExpr a (sumExpr fuel) :=
  places_sum ha (places_factor ha fuel) fuel

theorem places_expression (fuel : Nat) : PlacesExpr a (expression fuel) :=
  places_comparison ha (places_factor ha fuel) fuel

/-- A production of statements. -/
abbrev PlacesStmt (a : Scan) (x : Parser Stmt) : Prop := Places a (fun s => [.stmt s]) x

/-- A production of bodies. -/
abbrev PlacesBody (a : Scan) (x : Parser Body) : Prop := Places a (fun b => [.body b]) x

section Blocks

theorem places_jump {build : Span → Stmt} (hspan : ∀ span, (build span).span = span)
    (hchildren : ∀ span, (build span).children = []) :
    Places a (List.map .stmt) (jump build) := by
  refine fun i => .here fun p hp => .andAdvance (.finish ha hp fun span hs => ?_)
  refine lays_skipSemicolon.bind fun j _ hj _ => .pure (Lies.mono ?_ (Nat.le_refl i) hj)
  refine .node (Nat.lt_succ_self i) (by rintro _ ⟨⟩) ?_ ?_
  · rw [Node.span, hspan]
    exact hs
  · rw [Node.children, hchildren]
    exact .nil (Nat.le_succ i)

theorem places_finalJump : Places a (List.map .stmt) finalJump := by
  refine fun i => .kind fun k => ?_
  split
  · exact places_jump ha (fun _ => rfl) (fun _ => rfl) i
  · exact places_jump ha (fun _ => rfl) (fun _ => rfl) i
  · exact .pure (.nil (Nat.le_refl i))

omit ha in
/-- A body spans its statements, and has some unless it spans nothing. -/
theorem stretches_body {i j : Nat} {ss : List Stmt} {span : Span} (hspan : Spans a i j span)
    (h : Lies a i j (ss.map .stmt)) : Stretches a i j (.body ⟨ss, span⟩) := by
  refine ⟨h.le, fun hij => ?_, by rintro _ ⟨⟩, hspan, h⟩
  cases ss with
  | nil => rfl
  | cons s ss => exact absurd hij (Nat.ne_of_lt h.lt)

variable {x : Parser Stmt} (hx : PlacesStmt a x) (fuel : Nat)
include hx

omit ha in
theorem places_statements : Places a (List.map .stmt) (statements x fuel) := by
  induction fuel with
  | zero => exact fun _ => .exhausted
  | succ fuel ih =>
    refine fun i => .kind fun k => ?_
    split
    · refine (hx i).bind fun j s hj hs => lays_skipSemicolon.bind fun k _ hk _ => ?_
      exact (ih k).bind fun l ss hl hss => .pure (hs.append (hss.mono hk (Nat.le_refl l)))
    · exact .pure (.nil (Nat.le_refl i))

theorem lays_body (conditional : Bool) (i : Nat) :
    Lays a i (body x fuel conditional) fun j b => Stretches a i j (.body b) := by
  refine .enter (.here fun p hp => ?_)
  refine (places_statements hx fuel i).bind fun j ss hj hss => ?_
  cases conditional with
  | false =>
    refine .spanned ha hp fun span hs => stretches_body hs ?_
    rwa [List.append_nil]
  | true =>
    refine (places_finalJump ha j).bind fun k js hk hjs => .spanned ha hp fun span hs => ?_
    refine stretches_body hs ?_
    rw [List.map_append]
    exact hss.append hjs

theorem places_braced (conditional : Bool) : PlacesBody a (braced x fuel conditional) :=
  fun i => .mark ((lays_body ha hx fuel conditional (i + 1)).bind fun j _ _ h =>
    .mark (.pure (h.lies (Nat.lt_succ_self i) (Nat.lt_succ_self j))))

theorem places_bracedOrSingle : PlacesBody a (bracedOrSingle x fuel) := by
  refine fun i => .test (places_braced ha hx fuel false i) (.here fun p hp => .kind fun k => ?_)
  split
  · refine (hx i).bind fun j s hj h => .mark (.spanned ha hp fun span hs => ?_)
    exact .node (Nat.lt_succ_of_le hj) (by rintro _ ⟨⟩) hs (h.mono (Nat.le_refl i) (Nat.le_succ j))
  · exact .unexpected _

end Blocks

section Statements

variable {x y : Parser Expr} (hx : PlacesExpr a x) (hy : PlacesExpr a y) (fuel : Nat)
include hx

omit ha in
theorem places_pair : Places a (fun v => [.expr v.1, .expr v.2]) (pair x) := by
  refine fun i => .mark ((hx _).bind fun j e hj he => .mark ((hx _).bind fun k f hk hf => ?_))
  refine .mark (.pure ((he.mono (Nat.le_succ i) (Nat.le_succ j)).append ?_))
  exact hf.mono (Nat.le_refl _) (Nat.le_succ k)

theorem places_giveBack : PlacesStmt a (giveBack x) := by
  have hvalue : Places a (fun v => (v.map Node.expr).toList) (some <$> x) := fun i =>
    (hx i).map fun _ _ _ h => h
  rw [giveBack_eq]
  refine fun i => .here fun p hp => .andAdvance (.bind
    (P := fun j v => Lies a (i + 1) j (v.map Node.expr).toList) (.kind fun k => ?_)
    fun j v hj hv => .spanned ha hp fun span hs => ?_)
  · split
    · refine .test (.peek fun k => ?_) (hvalue (i + 1))
      split
      · exact .pure (.nil (Nat.le_refl _))
      · exact hvalue (i + 1)
    · exact .pure (.nil (Nat.le_refl _))
  · exact .node hj (by rintro _ ⟨⟩) hs (hv.mono (Nat.le_succ i) (Nat.le_refl j))

theorem places_assignment : PlacesStmt a (assignment x) := by
  refine fun i => .here fun p hp => .ident fun target htarget => .mark ?_
  refine (hx _).bind fun j e hj he => .spanned ha hp fun span hs => ?_
  refine .node (by omega) (by rintro _ ⟨⟩) hs (htarget.append ?_)
  exact he.mono (Nat.le_succ _) (Nat.le_refl j)

omit hx in
theorem places_advancement {op : Op} (hop : op ∈ Op.known) : PlacesStmt a (advancement op) := by
  refine fun i => .here fun p hp => .ident fun target htarget => lays_operator hop fun o ho => ?_
  refine .spanned ha hp fun span hs => ?_
  exact .node (by omega) (by rintro _ ⟨⟩) hs (htarget.append ho)

omit ha in
theorem places_elements : Places a (List.map .expr) (elements x fuel) := by
  induction fuel with
  | zero => exact fun _ => .exhausted
  | succ fuel ih =>
    refine fun i => .test (.pure (.nil (Nat.le_refl i))) ?_
    refine (hx i).bind fun j e hj he => .test (.andAdvance ?_) (.pure he)
    refine (ih (j + 1)).bind fun k es hk hes => .pure ?_
    exact he.append (hes.mono (Nat.le_succ j) (Nat.le_refl k))

include hy in
theorem places_declaration : PlacesStmt a (declaration x y fuel) := by
  refine fun i => .here fun p hp => .ident fun target htarget => .mark (.kind fun k => ?_)
  have hstatement : ∀ {j k : Nat} {s : Stmt} {ns : List Node}, i + 1 ≤ j → i < k →
      s.children = target.node :: ns → Spans a i k s.span → Lies a j k ns →
      Lies a i k [.stmt s] := by
    intro j k s ns hj hk hchildren hs hns
    refine .node hk (by rintro _ ⟨⟩) hs ?_
    rw [Node.children, hchildren]
    exact htarget.append (hns.mono hj (Nat.le_refl k))
  split
  · refine .andAdvance ((hy _).bind fun j e hj he => .mark (.spanned ha hp fun span hs => ?_))
    exact hstatement (by omega) (by omega) rfl hs (he.mono (Nat.le_refl _) (Nat.le_succ j))
  · refine .andAdvance ((places_elements hx fuel _).bind fun j es hj hes => .mark ?_)
    refine .spanned ha hp fun span hs => ?_
    exact hstatement (by omega) (by omega) rfl hs (hes.mono (Nat.le_refl _) (Nat.le_succ j))
  · refine .andAdvance ((places_pair hx _).bind fun j v hj hv => .spanned ha hp fun span hs => ?_)
    exact hstatement (by omega) (by omega) rfl hs hv
  · refine .andAdvance ((places_pair hx _).bind fun j v hj hv => .spanned ha hp fun span hs => ?_)
    exact hstatement (by omega) (by omega) rfl hs hv
  · exact .unexpected _

theorem lays_updateOf {i j : Nat} {p : Position} (hp : Starts a i p) {slot : Ident × Expr × Span}
    (hslot : Lies a i j [slotNode slot]) :
    Lays a j (updateOf x slot p) fun k s => Lies a i k [.stmt s] := by
  have hij := hslot.le
  refine .mark ((hx _).bind fun k e hk he => .spanned ha hp fun span hs => ?_)
  refine .node (by omega) (by rintro _ ⟨⟩) hs (hslot.append ?_)
  exact he.mono (Nat.le_succ j) (Nat.le_refl k)

include hy in
theorem places_nameStatement : PlacesStmt a (nameStatement x y fuel) := by
  refine fun i => .peek fun k => ?_
  split
  · exact places_assignment ha hx i
  · exact places_advancement ha (by decide) i
  · exact places_advancement ha (by decide) i
  · exact (places_call ha hx fuel i).map fun _ _ _ h => h.act
  · exact places_declaration ha hx hy fuel i
  · exact .here fun p hp => (places_slot ha hy i).bind fun _ _ _ h => lays_updateOf ha hx hp h
  · exact .andAdvance (.unexpected _)

theorem places_print (newline : Bool) : PlacesStmt a (print x fuel newline) := by
  refine fun i => .here fun p hp => .andAdvance ?_
  refine (places_arguments hx fuel _).bind fun j es hj hes => .spanned ha hp fun span hs => ?_
  exact .node hj (by rintro _ ⟨⟩) hs (hes.mono (Nat.le_succ i) (Nat.le_refl j))

theorem places_writeFile (newline : Bool) : PlacesStmt a (writeFile x newline) := by
  refine fun i => .here fun p hp => .andAdvance (.mark (.ident fun file hfile => .mark ?_))
  refine (hx _).bind fun j e hj he => .mark (.spanned ha hp fun span hs => ?_)
  refine .node (by omega) (by rintro _ ⟨⟩) hs ?_
  exact (hfile.mono (by omega) (Nat.le_refl _)).append (he.mono (Nat.le_succ _) (Nat.le_succ j))

variable {b : Parser Body} (hb : PlacesBody a b)
include hb

theorem places_loop : PlacesStmt a (loop x b) := by
  refine fun i => .enter (.here fun p hp => .andAdvance (.inParens (hx _) fun j e hj he => ?_))
  refine (hb _).bind fun k body hk hbody => .spanned ha hp fun span hs => ?_
  refine .node (by omega) (by rintro _ ⟨⟩) hs ?_
  exact (he.mono (by omega) (Nat.le_succ j)).append hbody

theorem places_range : PlacesStmt a (range x b) := by
  refine fun i => .enter (.here fun p hp => .andAdvance (.ident fun counter hcounter => .mark ?_))
  refine (places_pair hx _).bind fun j v hj hv => (hb _).bind fun k body hk hbody => ?_
  refine .spanned ha hp fun span hs => .node (by omega) (by rintro _ ⟨⟩) hs ?_
  exact (hcounter.mono (by omega) (Nat.le_succ _)).append (hv.append hbody)

theorem places_orWhens : Places a (List.map .orWhen) (orWhens x b fuel) := by
  induction fuel with
  | zero => exact fun _ => .exhausted
  | succ fuel ih =>
    refine fun i => .test (.here fun p hp => .andAdvance (.inParens (hx _) fun j e hj he => ?_))
      (.pure (.nil (Nat.le_refl i)))
    refine (hb _).bind fun k body hk hbody => .finish ha hp fun span hs => ?_
    have hbranch : Lies a i k [.orWhen ⟨e, body, span⟩] := by
      refine .node (by omega) (by rintro _ ⟨⟩) hs ?_
      exact (he.mono (by omega) (Nat.le_succ j)).append hbody
    exact (ih k).bind fun l others hl hothers => .pure (hbranch.append hothers)

omit hx in
theorem places_otherwise :
    Places a (fun v => (v.map Node.otherwise).toList) (otherwise b) := by
  refine fun i => .test (.here fun p hp => .andAdvance ?_) (.pure (.nil (Nat.le_refl i)))
  refine (hb _).bind fun j body hj hbody => .spanned ha hp fun span hs => ?_
  exact .node hj (by rintro _ ⟨⟩) hs (hbody.mono (Nat.le_succ i) (Nat.le_refl j))

theorem places_conditional : PlacesStmt a (conditional x b fuel) := by
  refine fun i => .enter (.here fun p hp => .andAdvance (.inParens (hx _) fun j e hj he => ?_))
  refine (hb _).bind fun k body hk hbody => ?_
  refine (places_orWhens ha hx fuel hb k).bind fun l others hl hothers => ?_
  refine (places_otherwise ha hb l).bind fun m last hm hlast => .spanned ha hp fun span hs => ?_
  refine .node (by omega) (by rintro _ ⟨⟩) hs ?_
  exact (he.mono (by omega) (Nat.le_succ j)).append (hbody.append (hothers.append hlast))

include hy

theorem places_statementWith : PlacesStmt a (statementWith x y b fuel) := by
  refine fun i => .enter (.kind fun k => ?_)
  split
  case h_1 => exact places_nameStatement ha hx hy fuel i
  case h_2 => exact places_giveBack ha hx i
  case h_3 => exact places_loop ha hx hb i
  case h_4 => exact places_range ha hx hb i
  case h_5 => exact places_conditional ha hx fuel hb i
  case h_6 | h_7 => exact places_print ha hx fuel _ i
  case h_8 => exact (places_inputLine ha i).map fun _ _ _ h => h.act
  case h_9 => exact places_fileVerb ha (fun _ _ => rfl) (fun _ _ => rfl) (by rintro _ _ _ ⟨⟩) i
  case h_10 => exact (places_readFile ha hx i).map fun _ _ _ h => h.act
  case h_11 =>
    have hread : PlacesExpr a (fileVerb .readLine) :=
      places_fileVerb ha (fun _ _ => rfl) (fun _ _ => rfl) (by rintro _ _ _ ⟨⟩)
    exact (hread i).map fun _ _ _ h => h.act
  case h_12 | h_13 => exact places_writeFile ha hx _ i
  case h_14 => exact .unexpected _

end Statements

theorem places_statement (fuel : Nat) : PlacesStmt a (statement fuel) := by
  induction fuel with
  | zero => exact fun _ => .exhausted
  | succ fuel ih =>
    exact places_statementWith ha (places_expression ha fuel) (places_sumExpr ha fuel) fuel
      (places_braced ha ih fuel true)

theorem places_definition (fuel : Nat) :
    Places a (fun f => [.function f]) (definition fuel) := by
  have hname : Places a (fun v : Ident => [v.node]) expectName := fun i =>
    lays_expectName.mono fun j v _ h => h.1 ▸ h.2
  have hparams : Places a (List.map Ident.node) (optionalParameters fuel) := by
    refine fun i => .test ?_ (.pure (.nil (Nat.le_refl i)))
    rw [parameters_eq]
    refine .mark (.bind (P := fun j vs => Lies a (i + 1) j (vs.map Ident.node)) ?_
      fun j vs hj hvs => .mark (.pure (hvs.mono (Nat.le_succ i) (Nat.le_succ j))))
    exact .test (places_commaList hname fuel (i + 1)) (.pure (.nil (Nat.le_refl _)))
  rw [definition_eq]
  refine fun i => .enter (.here fun p hp => .mark (.ident fun name hname => ?_))
  refine (hparams _).bind fun j params hj hparams => .mark ?_
  refine (places_bracedOrSingle ha (places_statement ha fuel) fuel _).bind fun k b hk hb => ?_
  refine .spanned ha hp fun span hs => .node (by omega) (by rintro _ ⟨⟩) hs ?_
  refine (hname.mono (Nat.le_succ i) (Nat.le_refl _)).append (hparams.append ?_)
  exact hb.mono (Nat.le_succ j) (Nat.le_refl k)

theorem places_definitions (n fuel : Nat) :
    Places a (List.map .function) (definitions (definition n) fuel) := by
  induction fuel with
  | zero => exact fun _ => .exhausted
  | succ fuel ih =>
    refine fun i => .test ?_ (.pure (.nil (Nat.le_refl i)))
    refine (places_definition ha n i).bind fun j f hj hf => (ih j).bind fun k fs hk hfs => ?_
    exact .pure (hf.append hfs)

omit ha in
theorem lays_expectAll {i : Nat} (marks : List Mark) :
    Lays a i (expectAll marks) fun _ _ => True := by
  induction marks generalizing i with
  | nil => exact .pure trivial
  | cons m marks ih => exact .mark ih

theorem lays_programParts (fuel : Nat) {i : Nat} :
    Lays a i (programParts fuel) fun j v => Lies a i j (v.1.map .function ++ [.body v.2]) := by
  refine .enter ((places_definitions ha fuel fuel i).bind fun j fs hj hfs => ?_)
  refine (lays_expectAll _).bind fun k _ hk _ => ?_
  refine (places_bracedOrSingle ha (places_statement ha fuel) fuel k).bind fun l b hl hb => ?_
  exact .pure (hfs.append (hb.mono hk (Nat.le_refl l)))

theorem lays_fetchedProgram (fuel : Nat) :
    Lays a 0 (fetchedProgram fuel) fun j p => Rests a 0 j (.program p) := by
  rw [fetchedProgram_eq]
  refine .here fun p hp => .test (.pure ?_) ((lays_programParts ha fuel).bind fun j v _ hv => ?_)
  · exact Stretches.rests ⟨Nat.le_refl 0, fun _ => rfl, by rintro _ ⟨⟩, ⟨hp, .inl ⟨rfl, rfl⟩⟩,
      .nil (Nat.le_refl 0)⟩
  · refine .mark (.spanned ha hp fun span hs => Stretches.rests ?_)
    exact ⟨Nat.zero_le _, fun h => absurd h (Nat.ne_of_lt (Nat.succ_pos j)), by rintro _ ⟨⟩, hs,
      hv.mono (Nat.le_refl 0) (Nat.le_succ j)⟩

theorem lays_slotEntry (fuel : Nat) {i : Nat} :
    Lays a i (slotEntry fuel) fun j n => Rests a i j n ∧ n.isWhole := by
  refine .here fun p hp => (places_slot ha (places_sumExpr ha fuel) i).bind fun j v hj hv => ?_
  refine .test ?_ ?_
  · refine (lays_updateOf ha (places_expression ha fuel) hp hv).bind fun k s hk hs => ?_
    refine lays_skipSemicolon.bind fun l _ hl _ => ?_
    refine (lays_body ha (places_statement ha fuel) fuel false l).bind fun m b hm hb => ?_
    refine .spanned ha hp fun span hspan => ⟨(stretches_body hspan ?_).rests, rfl⟩
    exact hs.append (hb.inner.mono hl (Nat.le_refl m))
  · exact (lays_comparisonAfter ha (places_factor ha fuel) fuel hp hv).map fun _ _ _ h =>
      ⟨h.rests (List.mem_singleton.mpr rfl), rfl⟩

theorem lays_entryNode (fuel : Nat) {i : Nat} :
    Lays a i (entryNode fuel) fun j n => Rests a i j n ∧ n.isWhole := by
  have hbody : Lays a i (.body <$> plainBody fuel) fun j n => Rests a i j n ∧ n.isWhole :=
    (lays_body ha (places_statement ha fuel) fuel false i).map fun _ _ _ h => ⟨h.rests, rfl⟩
  have hexpr : Lays a i (.expr <$> expression fuel) fun j n => Rests a i j n ∧ n.isWhole :=
    (places_expression ha fuel i).map fun _ _ _ h => ⟨h.rests (List.mem_singleton.mpr rfl), rfl⟩
  refine .kind fun k => ?_
  split
  · exact (places_definition ha fuel i).map fun _ _ _ h =>
      ⟨h.rests (List.mem_singleton.mpr rfl), rfl⟩
  · refine .peek fun k => ?_
    split
    case h_5 => exact lays_slotEntry ha fuel
    case h_6 => exact hexpr
    all_goals exact hbody
  · split
    · exact hbody
    · exact hexpr

omit ha in
theorem lays_conclude {i j : Nat} {n : Node} (hn : Rests a i j n ∧ n.isWhole) :
    Lays a j (conclude n) fun k r => ∀ n', r = some n' → Rests a i k n' ∧ n'.isWhole := by
  have hend : ∀ k, j ≤ k → Lays a k
      (at? .endOfInput >>= fun b => if b then pure (some n) else unexpected ["end of input"])
      fun l r => ∀ n', r = some n' → Rests a i l n' ∧ n'.isWhole := by
    refine fun k hk => .test (.pure ?_) (.unexpected _)
    rintro _ ⟨⟩
    exact ⟨hn.1.mono (Nat.le_refl i) hk, hn.2⟩
  cases n with
  | expr e => exact lays_skipSemicolon.bind fun k _ hk _ => hend k hk
  | _ => exact hend j (Nat.le_refl j)

/-- An entry whose first token was fetched. -/
theorem lays_fetchedEntry (fuel : Nat) :
    Lays a 0 (do
        if ← at? .endOfInput then pure none
        else
          enter "<Interactive>"
          entryNode fuel >>= conclude)
      fun j n => ∀ n', n = some n' → Rests a 0 j n' ∧ n'.isWhole := by
  refine .test (.pure (by rintro _ ⟨⟩)) (.enter ?_)
  exact (lays_entryNode ha fuel).bind fun _ _ _ hn => lays_conclude hn

end Productions

/-- Fetching the first token of a scan. -/
theorem at_fetched {a : Scan} {s : State} (h : advance (.ofScan a) = .ok () s) : At a 0 s := by
  cases ht : a.tokens with
  | cons t ts =>
    have hget : a.token? 0 = some t := by simp [Scan.token?, ht]
    simp only [advance, State.ofScan, ht] at h
    cases h
    exact ⟨hget, by rw [ht]; rfl, rfl, .inl ⟨rfl, rfl⟩⟩
  | nil =>
    cases he : a.ending with
    | error f =>
      simp only [advance, State.ofScan, ht, he] at h
      cases h
    | ok e =>
      have hget : a.token? 0 = some e := by simp [Scan.token?, ht, he, Except.toOption]
      simp only [advance, State.ofScan, ht, he] at h
      cases h
      exact ⟨hget, by rw [ht]; rfl, he.symm, .inl ⟨rfl, rfl⟩⟩

/-- A production that follows the fetching of the first token. -/
theorem goes_fetched {a : Scan} {x : Parser α} {P : Nat → α → Prop} (hx : Lays a 0 x P) :
    Goes a 0 P ((advance >>= fun _ => x) (.ofScan a)) := by
  rw [Step.bind_apply]
  cases h : advance (.ofScan a) with
  | ok _ s => exact hx s (at_fetched h)
  | exhausted => exact .exhausted
  | error d s =>
    unfold advance at h
    split at h
    · cases h
    · cases h
    · next f _ he =>
      cases h
      exact .error (.inr ⟨f, he, rfl⟩)

section Texts

variable (limits : Token.Limits) (text : Bytes)

/-- A program lies where it was parsed. -/
theorem goes_parseProgram :
    Goes (Token.tokenize limits text) 0
      (fun j p => Rests (Token.tokenize limits text) 0 j (.program p))
      (parseProgram limits text) :=
  goes_fetched (lays_fetchedProgram (Token.known_tokenize limits text) _)

/-- An entry lies where it was parsed. -/
theorem goes_parseEntry :
    Goes (Token.tokenize limits text) 0
      (fun j n => ∀ n', n = some n' → Rests (Token.tokenize limits text) 0 j n' ∧ n'.isWhole)
      (parseEntry limits text) :=
  goes_fetched (lays_fetchedEntry (Token.known_tokenize limits text) _)

/-- The trees that a text stands for, as a program or as an entry. -/
def StandsFor (limits : Token.Limits) (text : Bytes) (n : Node) : Prop :=
  (∃ p s, parseProgram limits text = .ok p s ∧ n = .program p) ∨
    ∃ s, parseEntry limits text = .ok (some n) s

variable {limits text}

theorem StandsFor.rests {n : Node} (h : StandsFor limits text n) :
    n.isWhole ∧ ∃ j, Rests (Token.tokenize limits text) 0 j n := by
  obtain ⟨p, s, hp, rfl⟩ | ⟨s, hn⟩ := h
  · have hgoes := goes_parseProgram limits text
    rw [hp] at hgoes
    obtain ⟨-, -, hrests⟩ := hgoes
    exact ⟨rfl, _, hrests⟩
  · have hgoes := goes_parseEntry limits text
    rw [hn] at hgoes
    obtain ⟨-, -, hrests⟩ := hgoes
    obtain ⟨hrests, hwhole⟩ := hrests n rfl
    exact ⟨hwhole, _, hrests⟩

end Texts

end Syntax

end Kotoba
