import Kotoba.Proofs.Syntax.Grammar
import Kotoba.Proofs.Syntax.Names

/-! What is parsed is derived: the tokens that a production takes in stand for its result. -/
namespace Kotoba.Syntax

open Token (Lexeme Kind)
open Kotoba.Syntax.Parser

/-- What the tokens say that are not consumed yet. -/
def State.lexemes (s : State) : List Lexeme := s.left.map fun t => t.lexeme.said

/-- The end of the input was not consumed, and no token is left that stops where it does. -/
def State.Unspent (s : State) : Prop :=
  ∀ e, s.ending = .ok e → s.lastStop ≠ e.stop ∧ ∀ t ∈ s.left, t.stop ≠ e.stop

variable {α β : Type}

namespace Alike

variable {s t : State} (h : Alike s t)
include h

theorem lexemes : t.lexemes = s.lexemes := by
  rw [State.lexemes, State.lexemes, h.left]

theorem unspent (hs : s.Unspent) : t.Unspent := by
  rw [State.Unspent, h.ending, h.lastStop, h.left]
  exact hs

end Alike

theorem said_of_kind_endOfInput {l : Lexeme} (h : l.kind = .endOfInput) : l.said = .endOfInput := by
  cases l <;> first | rfl | cases h

theorem said_current (s : State) : s.current.lexeme.said = front s.lexemes := by
  unfold State.lexemes State.left
  split
  · next h => exact said_of_kind_endOfInput h
  · rfl

theorem kind_front (s : State) : (front s.lexemes).kind = s.current.kind := by
  rw [← said_current, Lexeme.kind_said, Token.kind]

theorem map_kind_lexemes (s : State) : s.lexemes.map Lexeme.kind = s.kinds := by
  simp [State.lexemes, State.kinds, Token.kind]

theorem said_front (s : State) : (front s.lexemes).said = front s.lexemes := by
  rw [← said_current, Lexeme.said_said]

theorem said_of_mem_lexemes {s : State} {l : Lexeme} (h : l ∈ s.lexemes) : l.said = l := by
  obtain ⟨t, -, rfl⟩ := List.mem_map.mp h
  exact Lexeme.said_said _

/-- A mark says nothing but what it is. -/
theorem eq_of_kind_mark {l : Lexeme} {m : Mark} (hl : l.said = l) (h : l.kind = .mark m) :
    l = .of m := by
  cases l <;> cases h
  exact hl.symm

theorem lastStop_of_advance {s s' : State} (h : advance s = .ok () s') :
    s'.lastStop = s.current.stop ∧ s'.ending = s.ending := by
  unfold advance at h
  split at h
  · cases h
    exact ⟨rfl, noteScan_ending _ _⟩
  · cases h
    exact ⟨rfl, noteScan_ending _ _⟩
  · cases h

/-- What is consumed is not the end of the input. -/
theorem State.Unspent.advance {s s' : State} (hs : s.Unspent) (hleft : s.left = s.current :: s'.left)
    (h : Parser.advance s = .ok () s') : s'.Unspent := by
  obtain ⟨hlast, hending⟩ := lastStop_of_advance h
  intro e he
  obtain ⟨-, hall⟩ := hs e (hending ▸ he)
  rw [hleft, List.forall_mem_cons] at hall
  exact ⟨hlast ▸ hall.1, hall.2⟩

theorem advance_lexemes {s s' : State} (hs : s.Proper) (hne : front s.lexemes ≠ .endOfInput)
    (h : advance s = .ok () s') :
    s'.Proper ∧ (s.Unspent → s'.Unspent) ∧ s.lexemes = front s.lexemes :: s'.lexemes := by
  have hk : s.current.kind ≠ .endOfInput := fun hk =>
    hne (by rw [← said_current, said_of_kind_endOfInput hk])
  have hkinds := State.Proper.kinds_of_ne hk
  by_cases hmore : s.ahead.map Token.kind ≠ [] ∨ s.clean
  · obtain ⟨s₁, hadvance, hp, -, -, hleft⟩ := advance_ok hs hkinds hmore
    cases hadvance.symm.trans h
    refine ⟨hp, fun hu => hu.advance hleft hadvance, ?_⟩
    rw [← said_current, State.lexemes, hleft]
    rfl
  · simp only [not_or, Decidable.not_not, Bool.not_eq_true] at hmore
    rw [hmore.1] at hkinds
    obtain ⟨d, hadvance, -⟩ := advance_fault hkinds hmore.2
    cases hadvance.symm.trans h

theorem peek_lexemes {s s' : State} {k : Kind} (hs : s.Proper) (h : peek s = .ok k s') :
    Alike s s' ∧ (front s.lexemes.tail).kind = k := by
  have hfirst : first s.kinds.tail = (front s.lexemes.tail).kind := by
    rw [← map_kind_lexemes]
    rcases s.lexemes with _ | ⟨_, _ | ⟨_, _⟩⟩ <;> rfl
  by_cases hk : s.current.kind = .endOfInput
  · -- after the end of input comes the end of input again
    obtain ⟨ha, hc⟩ := hs.ended hk
    have hnil : s.lexemes = [] := by simp [State.lexemes, State.left, hk]
    rw [peek, ha] at h
    cases he : s.ending with
    | error f => simp [State.clean, he] at hc
    | ok e =>
      rw [he] at h
      cases h
      rw [hnil, hs.ending e he]
      exact ⟨alike_noteScan s e, rfl⟩
  · have hkinds := State.Proper.kinds_of_ne hk
    by_cases hmore : s.ahead.map Token.kind ≠ [] ∨ s.clean
    · obtain ⟨s₁, hpeek, halike⟩ := peek_ok hs hkinds hmore
      cases hpeek.symm.trans h
      rw [← hfirst, hkinds]
      exact ⟨halike, rfl⟩
    · simp only [not_or, Decidable.not_not, Bool.not_eq_true] at hmore
      rw [hmore.1] at hkinds
      obtain ⟨d, hpeek, -⟩ := peek_fault hkinds hmore.2
      cases hpeek.symm.trans h

/-- What a production takes in and yields on tokens that satisfy `K`. It does not take in the end of
the input. -/
def Yields (K : List Lexeme → Prop) (x : Parser α) (Q : List Lexeme → α → Prop) : Prop :=
  ∀ s a s', s.Proper → K s.lexemes → x s = .ok a s' →
    s'.Proper ∧ (s.Unspent → s'.Unspent) ∧ ∃ ts, s.lexemes = ts ++ s'.lexemes ∧ Q ts a

namespace Yields

variable {K : List Lexeme → Prop} {x : Parser α} {f : α → Parser β}
  {P : List Lexeme → α → Prop} {Q : List Lexeme → β → Prop}

theorem bind (hx : Yields K x P)
    (hf : ∀ ts a, P ts a → Yields (fun ls => K (ts ++ ls)) (f a) fun us b => Q (ts ++ us) b) :
    Yields K (x >>= f) Q := by
  intro s b s' hs hK h
  obtain ⟨a, s₁, h₁, h₂⟩ := Step.bind_eq_ok h
  obtain ⟨hs₁, hu₁, ts, hts, hP⟩ := hx s a s₁ hs hK h₁
  rw [hts] at hK
  obtain ⟨hs', hu', us, hus, hQ⟩ := hf ts a hP s₁ b s' hs₁ hK h₂
  exact ⟨hs', hu' ∘ hu₁, ts ++ us, by rw [hts, hus, List.append_assoc], hQ⟩

theorem mono {P' : List Lexeme → α → Prop} (hx : Yields K x P) (h : ∀ ts a, P ts a → P' ts a) :
    Yields K x P' := by
  intro s a s' hs hK hxs
  obtain ⟨hs', hu, ts, hts, hP⟩ := hx s a s' hs hK hxs
  exact ⟨hs', hu, ts, hts, h ts a hP⟩

theorem under {K' : List Lexeme → Prop} (hx : Yields K x P) (h : ∀ ls, K' ls → K ls) :
    Yields K' x P :=
  fun s a s' hs hK hxs => hx s a s' hs (h _ hK) hxs

theorem pure {a : α} (h : P [] a) : Yields K (Pure.pure a) P := by
  intro s b s' hs _ hpure
  cases hpure
  exact ⟨hs, id, [], rfl, h⟩

theorem map (hx : Yields K x P) {g : α → β} (h : ∀ ts a, P ts a → Q ts (g a)) :
    Yields K (g <$> x) Q := by
  rw [map_eq_pure_bind]
  refine hx.bind fun ts a ha => .pure ?_
  rw [List.append_nil]
  exact h ts a ha

theorem quiet (hx : x.Quiet) (hf : ∀ a, Yields K (f a) Q) : Yields K (x >>= f) Q := by
  intro s b s' hs hK h
  obtain ⟨a, s₁, h₁, h₂⟩ := Step.bind_eq_ok h
  have halike := hx.alike_of_ok h₁
  rw [← halike.lexemes] at hK ⊢
  obtain ⟨hs', hu, h⟩ := hf a s₁ b s' (halike.proper hs) hK h₂
  exact ⟨hs', hu ∘ halike.unspent, h⟩

/-- The end of a production: a tree is made, which spans what was consumed. -/
theorem spanned {start : Position} {g : Span → β} (h : ∀ span, Q [] (g span)) :
    Yields K (finish start >>= fun span => Pure.pure (g span)) Q :=
  quiet (quiet_finish _) fun span => .pure (h span)

theorem unexpected {expected : List Bytes} : Yields K (Parser.unexpected expected) P := by
  intro s a s' _ _ h
  cases h

theorem lost {expected : List Bytes} : Yields K (x >>= fun _ => Parser.unexpected expected) Q := by
  intro s b s' _ _ h
  obtain ⟨_, _, _, h⟩ := Step.bind_eq_ok h
  cases h

theorem exhausted : Yields K Step.exhausted P := by
  intro s a s' _ _ h
  cases h

theorem advance {l : Lexeme} (hK : ∀ ls, K ls → front ls = l) (hl : l ≠ .endOfInput) :
    Yields K Parser.advance fun ts _ => ts = [l] := by
  intro s _ s' hs hKs h
  have hfront := hK _ hKs
  obtain ⟨hs', hu, hlexemes⟩ := advance_lexemes hs (by rw [hfront]; exact hl) h
  exact ⟨hs', hu, [l], by rw [hlexemes, hfront]; rfl, rfl⟩

theorem current {p : Token → Parser β}
    (h : ∀ t : Token, Yields (fun ls => K ls ∧ front ls = t.lexeme.said) (p t) Q) :
    Yields K (Parser.current >>= p) Q := by
  intro s b s' hs hK hp
  exact h s.current s b s' hs ⟨hK, (said_current s).symm⟩ hp

/-- Productions chosen by the kind of the current token. -/
theorem kind {p : Kind → Parser β}
    (h : ∀ l : Lexeme, l.said = l → Yields (fun ls => K ls ∧ front ls = l) (p l.kind) Q) :
    Yields K (Parser.kind >>= p) Q := by
  intro s b s' hs hK hp
  refine h (front s.lexemes) (said_front s) s b s' hs ⟨hK, rfl⟩ ?_
  rw [kind_front]
  exact hp

/-- Productions chosen by whether the current token is a mark. -/
theorem test {m : Mark} {p q : Parser β}
    (hp : Yields (fun ls => K ls ∧ front ls = .of m) p Q) (hq : Yields K q Q) :
    Yields K (Parser.at? (.mark m) >>= fun b => if b then p else q) Q := by
  refine kind (p := fun k => if k == .mark m then p else q) fun l hl => ?_
  by_cases hk : l.kind = .mark m
  · rw [hk, if_pos (by simp)]
    exact hp.under fun ls h => ⟨h.1, h.2.trans (eq_of_kind_mark hl hk)⟩
  · rw [if_neg (by simpa using hk)]
    exact hq.under fun ls h => h.1

/-- Productions chosen by whether the current token is a name; what they do shows it again. -/
theorem named {p q : Parser β} (hp : Yields K p Q) (hq : Yields K q Q) :
    Yields K (Parser.at? .identifier >>= fun b => if b then p else q) Q := by
  refine kind (p := fun k => if k == .identifier then p else q) fun l _ => ?_
  split
  · exact hp.under fun ls h => h.1
  · exact hq.under fun ls h => h.1

theorem peek {p : Kind → Parser β}
    (h : ∀ l : Lexeme, l.said = l → Yields (fun ls => K ls ∧ front ls.tail = l) (p l.kind) Q) :
    Yields K (Parser.peek >>= p) Q := by
  intro s b s' hs hK hp
  obtain ⟨k, s₁, h₁, h₂⟩ := Step.bind_eq_ok hp
  obtain ⟨halike, rfl⟩ := peek_lexemes hs h₁
  have hsaid : (front s.lexemes.tail).said = front s.lexemes.tail := by
    cases htail : s.lexemes.tail with
    | nil => rfl
    | cons l ls => exact said_of_mem_lexemes (List.mem_of_mem_tail (htail ▸ List.mem_cons_self))
  rw [← halike.lexemes] at hK ⊢ h₂ hsaid
  obtain ⟨hs', hu, h⟩ := h _ hsaid s₁ b s' (halike.proper hs) ⟨hK, rfl⟩ h₂
  exact ⟨hs', hu ∘ halike.unspent, h⟩

end Yields

section Steps

variable {K : List Lexeme → Prop}

theorem yields_expect (m : Mark) : Yields K (expect (.mark m)) fun ts _ => ts = [.of m] :=
  .test (.advance (fun _ h => h.2) (by rintro ⟨⟩)) .unexpected

theorem yields_expectName :
    Yields K expectName fun ts ident => ts = [.identifier ident.name] := by
  refine .current fun t => ?_
  cases hl : t.lexeme with
  | identifier name =>
    refine (Yields.advance (fun ls h => h.2) (by rintro ⟨⟩)).bind ?_
    rintro _ _ rfl
    exact .pure rfl
  | _ => exact .unexpected

theorem yields_skipSemicolon :
    Yields K skipSemicolon fun ts _ => ∃ present, ts = semicolon? present := by
  refine .test ?_ (.pure ⟨false, rfl⟩)
  exact (Yields.advance (fun _ h => h.2) (by rintro ⟨⟩)).mono fun ts _ h => ⟨true, h⟩

theorem yields_operator (op : Op) {l : Lexeme} (hl : l ≠ .endOfInput)
    (hK : ∀ ls, K ls → front ls = l) :
    Yields K (operator op) fun ts o => ts = [l] ∧ o.op = op := by
  refine .quiet (quiet_gets _) fun t => (Yields.advance hK hl).bind ?_
  rintro _ _ rfl
  exact .pure ⟨rfl, rfl⟩

theorem yields_leaf (build : Span → Expr) {l : Lexeme} (hl : l ≠ .endOfInput)
    (hK : ∀ ls, K ls → front ls = l) :
    Yields K (leaf build) fun ts e => ts = [l] ∧ ∃ span, e = build span := by
  refine .quiet quiet_here fun start => (Yields.advance hK hl).bind ?_
  rintro _ _ rfl
  exact .spanned fun span => ⟨rfl, span, rfl⟩

end Steps

/-- The reading of the grammar in which everything that is parsed is derived. -/
def Dialect.loose : Dialect := ⟨true, true, false⟩

/-- What a production of a category takes in stands for what it yields. -/
def Builds (c : Category) (x : Parser c.Tree) : Prop :=
  ∀ K, Yields K x (Derives .loose c)

namespace Yields

variable {K : List Lexeme → Prop} {Q : List Lexeme → β → Prop}

/-- A production that begins with a mark. -/
theorem mark {m : Mark} {f : Unit → Parser β}
    (h : Yields (fun ls => K (.of m :: ls)) (f ()) fun us b => Q (.of m :: us) b) :
    Yields K (expect (.mark m) >>= f) Q := by
  refine (yields_expect m).bind ?_
  rintro _ ⟨⟩ rfl
  exact h

/-- A production whose first mark is the current token. -/
theorem word {m : Mark} {f : Unit → Parser β} (hK : ∀ ls, K ls → front ls = .of m)
    (h : Yields (fun ls => K (.of m :: ls)) (f ()) fun us b => Q (.of m :: us) b) :
    Yields K (Parser.advance >>= f) Q := by
  refine (Yields.advance hK (by rintro ⟨⟩)).bind ?_
  rintro _ ⟨⟩ rfl
  exact h

/-- A production that begins with a name. -/
theorem ident {f : Ident → Parser β}
    (h : ∀ ident : Ident, Yields (fun ls => K (.identifier ident.name :: ls)) (f ident)
      fun us b => Q (.identifier ident.name :: us) b) :
    Yields K (expectName >>= f) Q := by
  refine yields_expectName.bind ?_
  rintro _ ident rfl
  exact h ident

/-- A production that begins with one of a category. -/
theorem part {c : Category} {x : Parser c.Tree} {f : c.Tree → Parser β} (hx : Builds c x)
    (h : ∀ ts t, Derives .loose c ts t →
      Yields (fun ls => K (ts ++ ls)) (f t) fun us b => Q (ts ++ us) b) :
    Yields K (x >>= f) Q :=
  (hx K).bind h

/-- A production that begins with one of a category in parentheses. -/
theorem inParens {c : Category} {x : Parser c.Tree} {f : c.Tree → Parser β} (hx : Builds c x)
    (h : ∀ ts t, Derives .loose c ts t →
      Yields (fun ls => K (.of .openParen :: (ts ++ .of .closeParen :: ls))) (f t)
        fun us b => Q (.of .openParen :: (ts ++ .of .closeParen :: us)) b) :
    Yields K (parenthesized x >>= f) Q := by
  unfold parenthesized
  simp only [bind_assoc, pure_bind]
  refine .mark (.part hx fun ts t ht => .mark ?_)
  simpa using h ts t ht

end Yields

section Layers

variable {K : List Lexeme → Prop}

/-- The rest of a layer: each operator takes what comes before it as its left operand. -/
theorem yields_chain {layer : Layer} {op? : Kind → Option Op} {x : Parser Expr}
    {P R : List Lexeme → Expr → Prop}
    (hop : ∀ k op, op? k = some op → ∃ m, k = .mark m)
    (hstep : ∀ {m op ts us l r} opSpan span, P ts l → op? (.mark m) = some op → R us r →
      P (ts ++ .of m :: us) (.binary layer l ⟨op, opSpan⟩ r span))
    (hx : ∀ K, Yields K x R) (start : Position) (fuel : Nat) {left : Expr} {ts : List Lexeme}
    (hleft : P ts left) :
    Yields K (chain layer op? x start fuel left) fun us e => P (ts ++ us) e := by
  induction fuel generalizing K left ts with
  | zero => exact .exhausted
  | succ fuel ih =>
    refine .kind fun l hl => ?_
    cases hk : op? l.kind with
    | none => exact .pure (by rwa [List.append_nil])
    | some op =>
      obtain ⟨m, hm⟩ := hop _ _ hk
      obtain rfl := eq_of_kind_mark hl hm
      refine (yields_operator op (by rintro ⟨⟩) fun _ h => h.2).bind ?_
      rintro _ ⟨op, opSpan⟩ ⟨rfl, rfl⟩
      refine (hx _).bind fun us r hr => .quiet (quiet_finish _) fun span => ?_
      refine (ih (hstep opSpan span hleft hk hr)).mono fun vs e he => ?_
      simpa using he

variable {x : Parser Expr} (hx : Builds .factor x) (fuel : Nat)
include hx

theorem yields_productFrom {left : Expr} {ts : List Lexeme}
    (hleft : Derives .loose .product ts left) (start : Position) :
    Yields K (productFrom x fuel left start) fun us e => Derives .loose .product (ts ++ us) e := by
  refine yields_chain (fun _ _ => exists_mark_of_multiplicativeOp) ?_ hx start fuel hleft
  intro m op ts us l r opSpan span hl hm hr
  exact .multiply opSpan span hl hm hr

theorem builds_product : Builds .product (product x fuel) := by
  intro K
  refine .quiet quiet_here fun start => .part hx fun ts e he => ?_
  exact yields_productFrom hx fuel (.ofFactor he) start

theorem yields_sumFrom {left : Expr} {ts : List Lexeme} (hleft : Derives .loose .sum ts left)
    (start : Position) :
    Yields K (sumFrom x fuel left start) fun us e => Derives .loose .sum (ts ++ us) e := by
  refine yields_chain (fun _ _ => exists_mark_of_additiveOp) ?_ (builds_product hx fuel) start fuel
    hleft
  intro m op ts us l r opSpan span hl hm hr
  exact .add opSpan span hl hm hr

theorem builds_sum : Builds .sum (sum x fuel) := by
  intro K
  refine .quiet quiet_here fun start => .part (builds_product hx fuel) fun ts e he => ?_
  exact yields_sumFrom hx fuel (.ofProduct he) start

theorem yields_comparisonFrom {left : Expr} {ts : List Lexeme}
    (hleft : Derives .loose .sum ts left) (start : Position) :
    Yields K (comparisonFrom x fuel left start) fun us e => Derives .loose .expr (ts ++ us) e := by
  refine .kind fun l hl => ?_
  cases hk : relationalOp? l.kind with
  | none => exact .pure (by rw [List.append_nil]; exact .ofSum hleft)
  | some op =>
    obtain ⟨m, hm⟩ := exists_mark_of_relationalOp hk
    obtain rfl := eq_of_kind_mark hl hm
    refine (yields_operator op (by rintro ⟨⟩) fun _ h => h.2).bind ?_
    rintro _ ⟨op, opSpan⟩ ⟨rfl, rfl⟩
    refine .part (builds_sum hx fuel) fun us r hr => .spanned fun span => ?_
    simpa using Derives.compare opSpan span hleft hk hr

theorem builds_comparison : Builds .expr (comparison x fuel) := by
  intro K
  refine .quiet quiet_here fun start => .part (builds_sum hx fuel) fun ts e he => ?_
  exact yields_comparisonFrom hx fuel he start

end Layers

section Factors

variable {K : List Lexeme → Prop} {x : Parser Expr} (hx : Builds .expr x) (fuel : Nat)

include hx in
theorem builds_items : Builds .items (commaList x fuel) := by
  induction fuel with
  | zero => exact fun _ => .exhausted
  | succ fuel ih =>
    refine fun K => .part hx fun ts e he => .test (.word (fun _ h => h.2) ?_) (.pure ?_)
    · refine .part ih fun us es hes => .pure ?_
      simpa using Derives.moreItems he hes
    · simpa using Derives.oneItem he

include hx in
theorem builds_arguments : Builds .arguments (arguments x fuel) := by
  intro K
  rw [arguments_eq]
  refine .mark (.bind (P := fun ts es => ts = [] ∧ es = [] ∨ Derives .loose .items ts es) ?_ ?_)
  · refine .kind fun l _ => ?_
    split
    · exact (builds_items hx fuel _).mono fun _ _ h => .inr h
    · exact .pure (.inl ⟨rfl, rfl⟩)
  · rintro ts es (⟨rfl, rfl⟩ | hes)
    · exact .mark (.pure .noArguments)
    · exact .mark (.pure (.arguments hes))

include hx in
theorem builds_call : Builds .action (call x fuel) := by
  refine fun K => .quiet quiet_here fun start => .ident fun callee => ?_
  refine .part (builds_arguments hx fuel) fun ts es hes => .spanned fun span => ?_
  simpa using Derives.call callee span hes

theorem yields_slot {y : Parser Expr} (hy : Builds .sum y) :
    Yields K (slot y) fun ts a => ∃ us, Derives .loose .sum us a.2.1 ∧
      ts = .identifier a.1.name :: .of .openBracket :: (us ++ [.of .closeBracket]) := by
  refine .quiet quiet_here fun start => .ident fun array => .mark (.part hy fun us e he => ?_)
  exact .mark (.spanned fun span => ⟨us, he, rfl⟩)

theorem yields_optionalPrompt :
    Yields K optionalPrompt fun ts prompt => ts = promptLexemes prompt := by
  refine .current fun t => ?_
  split
  · next hk =>
    obtain ⟨text, htext⟩ := Lexeme.exists_of_kind_string hk
    rw [htext]
    refine (Yields.advance (fun _ h => h.2) (by rintro ⟨⟩)).bind ?_
    rintro _ ⟨⟩ rfl
    exact .pure rfl
  · exact .pure rfl

theorem builds_inputLine : Builds .action inputLine := by
  intro K
  rw [inputLine_eq]
  refine .quiet quiet_here fun start => .mark (.mark (yields_optionalPrompt.bind ?_))
  rintro _ prompt rfl
  exact .mark (.spanned fun span => .input prompt span)

include hx in
theorem builds_readFile (hK : ∀ ls, K ls → front ls = .of .readFile) :
    Yields K (readFile x) (Derives .loose .action) := by
  refine .quiet quiet_here fun start => .word hK (.mark (.ident fun file => ?_))
  refine .bind (P := fun ts count => ts = [] ∧ count = none ∨ ts = [.of .comma] ∧ count = none ∨
    ∃ us e, ts = .of .comma :: us ∧ count = some e ∧ Derives .loose .expr us e) ?_ ?_
  · refine .test (.word (fun _ h => h.2) (.kind fun l _ => ?_)) (.pure (.inl ⟨rfl, rfl⟩))
    split
    · refine .part hx fun us e he => .pure (.inr (.inr ⟨us, e, ?_, rfl, he⟩))
      rw [List.append_nil]
    · exact .pure (.inr (.inl ⟨rfl, rfl⟩))
  · rintro _ _ (⟨rfl, rfl⟩ | ⟨rfl, rfl⟩ | ⟨us, e, rfl, rfl, he⟩)
    · exact .mark (.spanned fun span => .readAll file span)
    · exact .mark (.spanned fun span => .readComma rfl file span)
    · exact .mark (.spanned fun span => .readSome file span he)

theorem yields_fileVerb {m : Mark} (hK : ∀ ls, K ls → front ls = .of m)
    (build : Ident → Span → α) {Q : List Lexeme → α → Prop}
    (hQ : ∀ file span, Q [.of m, .of .openParen, .identifier file.name, .of .closeParen]
      (build file span)) : Yields K (fileVerb build) Q := by
  refine .quiet quiet_here fun start => .word hK (.bind (P := fun ts file =>
    ts = [.of .openParen, .identifier (Ident.name file), .of .closeParen]) ?_ ?_)
  · exact .mark (.ident fun file => .mark (.pure rfl))
  · rintro _ file rfl
    exact .spanned fun span => hQ file span

include hx in
theorem yields_conversion {m : Mark} (hK : ∀ ls, K ls → front ls = .of m)
    (build : Expr → Span → Expr)
    (hbuild : ∀ {ts e} span, Derives .loose .expr ts e →
      Derives .loose .factor (.of m :: .of .openParen :: (ts ++ [.of .closeParen]))
        (build e span)) :
    Yields K (conversion x build) (Derives .loose .factor) := by
  refine .quiet quiet_here fun start => .word hK (.inParens hx fun us e he => ?_)
  exact .spanned fun span => by simpa using hbuild span he

include hx in
theorem builds_group : Builds .factor (group x) := by
  refine fun K => .quiet quiet_here fun start => .inParens hx fun us e he => ?_
  exact .spanned fun span => by simpa using Derives.group span he

theorem yields_negation {y : Parser Expr} (hy : Builds .factor y) {m : Mark} {op : Op}
    (hK : ∀ ls, K ls → front ls = .of m) (hm : unaryOp? m = some op) :
    Yields K (negation op y) (Derives .loose .factor) := by
  refine .quiet quiet_here fun start => (yields_operator op (by rintro ⟨⟩) hK).bind ?_
  rintro _ ⟨op, opSpan⟩ ⟨rfl, rfl⟩
  refine .part hy fun us e he => .spanned fun span => ?_
  simpa using Derives.unary opSpan span hm he

include hx in
theorem yields_reference {y : Parser Expr} (hy : Builds .sum y) {name : String}
    (hK : ∀ ls, K ls → front ls = .identifier name) :
    Yields K (reference x y fuel name) (Derives .loose .factor) := by
  refine .peek fun l _ => ?_
  split
  · exact (builds_call hx fuel _).mono fun _ _ h => .action h
  · refine (yields_slot hy).bind ?_
    rintro _ ⟨array, index, span⟩ ⟨us, he, rfl⟩
    exact .pure (by simpa using Derives.element array span he)
  · refine (yields_leaf _ (by rintro ⟨⟩) fun _ h => hK _ h.1).mono ?_
    rintro _ _ ⟨rfl, span, rfl⟩
    exact .name ⟨name, span⟩

theorem yields_literal {l : Lexeme} (hl : l ≠ .endOfInput) (hK : ∀ ls, K ls → front ls = l)
    {build : Span → Expr} (hbuild : ∀ span, Derives .loose .factor [l] (build span)) :
    Yields K (leaf build) (Derives .loose .factor) := by
  refine (yields_leaf build hl hK).mono ?_
  rintro _ _ ⟨rfl, span, rfl⟩
  exact hbuild span

include hx in
theorem builds_factorWith {y z : Parser Expr} (hy : Builds .sum y) (hz : Builds .factor z) :
    Builds .factor (factorWith x y z fuel) := by
  refine fun K => .current fun t => ?_
  cases hl : t.lexeme with
  | integer value => exact yields_literal (by rintro ⟨⟩) (fun _ h => h.2) (.int value)
  | float value => exact yields_literal (by rintro ⟨⟩) (fun _ h => h.2) (.float value)
  | string text => exact yields_literal (by rintro ⟨⟩) (fun _ h => h.2) (.string text)
  | identifier name => exact yields_reference hx fuel hy fun _ h => h.2
  | endOfInput => exact .unexpected
  | mark m spelling =>
    have hfront : ∀ ls : List Lexeme, K ls ∧ front ls = (Lexeme.mark m spelling).said →
        front ls = .of m := fun _ h => h.2
    cases m with
    | yes => exact yields_literal (by rintro ⟨⟩) hfront .yes
    | no => exact yields_literal (by rintro ⟨⟩) hfront .no
    | openParen => exact builds_group hx _
    | not => exact yields_negation hz hfront rfl
    | minus => exact yields_negation hz hfront rfl
    | input => exact (builds_inputLine _).mono fun _ _ h => .action h
    | asChar => exact yields_conversion hx hfront _ fun span he => .charOf span he
    | asInt => exact yields_conversion hx hfront _ fun span he => .codeOf span he
    | length => exact yields_conversion hx hfront _ fun span he => .length span he
    | readFile => exact (builds_readFile hx hfront).mono fun _ _ h => .action h
    | readLine => exact yields_fileVerb hfront _ fun file span => .action (.readLine file span)
    | endOfFile => exact yields_fileVerb hfront _ fun file span => .atEnd file span
    | _ => exact .unexpected

end Factors

theorem builds_factor (fuel : Nat) : Builds .factor (factor fuel) := by
  induction fuel with
  | zero => exact fun _ => .exhausted
  | succ fuel ih =>
    exact builds_factorWith (builds_comparison ih fuel) fuel (builds_sum ih fuel) ih

theorem builds_sumExpr (fuel : Nat) : Builds .sum (sumExpr fuel) :=
  builds_sum (builds_factor fuel) fuel

theorem builds_expression (fuel : Nat) : Builds .expr (expression fuel) :=
  builds_comparison (builds_factor fuel) fuel

section Statements

variable {K : List Lexeme → Prop} {x y : Parser Expr} (hx : Builds .expr x) (hy : Builds .sum y)
  (fuel : Nat)

include hx

theorem yields_giveBack (hK : ∀ ls, K ls → front ls = .of .giveBack) :
    Yields K (giveBack x) (Derives .loose .statement) := by
  rw [giveBack_eq]
  refine .quiet quiet_here fun start => .word hK (.bind (P := fun ts value =>
    ts = [] ∧ value = none ∨ ∃ e, value = some e ∧ Derives .loose .expr ts e) ?_ ?_)
  · have hvalue : ∀ K, Yields K (some <$> x) fun ts value =>
        ts = [] ∧ value = none ∨ ∃ e, value = some e ∧ Derives .loose .expr ts e :=
      fun K => (hx K).map fun ts e he => .inr ⟨e, rfl, he⟩
    refine .kind fun l _ => ?_
    split
    · refine .named (.peek fun l _ => ?_) (hvalue _)
      split
      · exact .pure (.inl ⟨rfl, rfl⟩)
      · exact hvalue _
    · exact .pure (.inl ⟨rfl, rfl⟩)
  · rintro ts _ (⟨rfl, rfl⟩ | ⟨e, rfl, he⟩)
    · exact .spanned fun span => .giveBackNone span
    · exact .spanned fun span => by simpa using Derives.giveBack span he

theorem builds_assignment : Builds .statement (assignment x) := by
  refine fun K => .quiet quiet_here fun start => .ident fun target => .mark ?_
  refine .part hx fun us e he => .spanned fun span => ?_
  simpa using Derives.assign target span he

omit hx in
theorem yields_advancement {m : Mark} {op : Op} (hm : advanceOp? m = some op)
    (hK : ∀ ls, K ls → front ls.tail = .of m) :
    Yields K (advancement op) (Derives .loose .statement) := by
  refine .quiet quiet_here fun start => .ident fun target => ?_
  refine (yields_operator op (by rintro ⟨⟩) fun ls h => hK (_ :: ls) h).bind ?_
  rintro _ ⟨op, opSpan⟩ ⟨rfl, rfl⟩
  exact .spanned fun span => .advance target opSpan span hm

theorem builds_elements : Builds .elements (elements x fuel) := by
  -- the comma after an element may be the last token, or more elements follow
  have hcomma {ts us : List Lexeme} {e : Expr} {es : List Expr} (he : Derives .loose .expr ts e)
      (hes : Derives .loose .elements us es) :
      Derives .loose .elements (ts ++ .of .comma :: us) (e :: es) := by
    cases hes with
    | noElements => exact .elementsComma rfl (.oneItem he)
    | elements hes => exact .elements (.moreItems he hes)
    | elementsComma _ hes => simpa using Derives.elementsComma rfl (Derives.moreItems he hes)
  induction fuel with
  | zero => exact fun _ => .exhausted
  | succ fuel ih =>
    refine fun K => .test (.pure .noElements) ?_
    refine .part hx fun ts e he => .test (.word (fun _ h => h.2) ?_) (.pure ?_)
    · refine .part ih fun us es hes => .pure ?_
      simpa using hcomma he hes
    · simpa using Derives.elements (.oneItem he)

theorem yields_pair :
    Yields K (pair x) fun ts a => Derives .loose .arguments ts [a.1, a.2] := by
  refine .mark (.part hx fun ts e he => .mark (.part hx fun us f hf => .mark (.pure ?_)))
  simpa using Derives.arguments (.moreItems he (.oneItem hf))

include hy

theorem builds_declaration : Builds .statement (declaration x y fuel) := by
  refine fun K => .quiet quiet_here fun start => .ident fun target => .mark (.kind fun l hl => ?_)
  cases hk : l.kind with
  | mark m =>
    obtain rfl := eq_of_kind_mark hl hk
    cases m with
    | openBracket =>
      refine .word (fun _ h => h.2) (.part hy fun us e he => .mark (.spanned fun span => ?_))
      exact .allocate target span he
    | openBrace =>
      refine .word (fun _ h => h.2) (.part (builds_elements hx fuel) fun us es hes => ?_)
      exact .mark (.spanned fun span => .collect target span hes)
    | openFile =>
      refine .word (fun _ h => h.2) ((yields_pair hx).bind ?_)
      rintro ts ⟨path, mode⟩ h
      exact .spanned fun span => by
        simpa [openTree] using Derives.openFile target span h fun _ => rfl
    | split =>
      refine .word (fun _ h => h.2) ((yields_pair hx).bind ?_)
      rintro ts ⟨source, separator⟩ h
      exact .spanned fun span => by
        simpa [splitTree] using Derives.split target span h fun _ => rfl
    | _ => exact .unexpected
  | _ => exact .unexpected

theorem yields_nameStatement :
    Yields K (nameStatement x y fuel) (Derives .loose .statement) := by
  refine .peek fun l hl => ?_
  cases hk : l.kind with
  | mark m =>
    obtain rfl := eq_of_kind_mark hl hk
    cases m with
    | assign => exact builds_assignment hx _
    | increment => exact yields_advancement rfl fun _ h => h.2
    | decrement => exact yields_advancement rfl fun _ h => h.2
    | openParen => exact (builds_call hx fuel _).map fun _ _ h => .act h
    | arrow => exact builds_declaration hx hy fuel _
    | openBracket =>
      refine .quiet quiet_here fun start => (yields_slot hy).bind ?_
      rintro _ ⟨array, index, slot⟩ ⟨us, hi, rfl⟩
      refine .mark (.part hx fun vs e he => .spanned fun span => ?_)
      simpa using Derives.update array slot span hi he
    | _ => exact .lost
  | _ => exact .lost

omit hy

theorem yields_print (newline : Bool) (hK : ∀ ls, K ls → front ls = .of (printMark newline)) :
    Yields K (print x fuel newline) (Derives .loose .statement) := by
  refine .quiet quiet_here fun start => .word hK ?_
  refine .part (builds_arguments hx fuel) fun ts es hes => .spanned fun span => ?_
  simpa using Derives.print newline span hes

theorem yields_writeFile (newline : Bool) (hK : ∀ ls, K ls → front ls = .of (writeMark newline)) :
    Yields K (writeFile x newline) (Derives .loose .statement) := by
  refine .quiet quiet_here fun start => .word hK (.mark (.ident fun file => .mark ?_))
  exact .part hx fun us e he => .mark (.spanned fun span => .write file newline span he)

variable {b : Parser Body} (hb : Builds (.block true) b)
include hb

theorem yields_loop (hK : ∀ ls, K ls → front ls = .of .loop) :
    Yields K (loop x b) (Derives .loose .statement) := by
  refine .quiet (quiet_enter _) fun _ => .quiet quiet_here fun start => .word hK ?_
  refine .inParens hx fun ts e he => .part hb fun us body hbody => .spanned fun span => ?_
  simpa using Derives.loop span he hbody

theorem yields_range (hK : ∀ ls, K ls → front ls = .of .range) :
    Yields K (range x b) (Derives .loose .statement) := by
  refine .quiet (quiet_enter _) fun _ => .quiet quiet_here fun start => .word hK ?_
  refine .ident fun counter => .mark (.bind (P := fun ts a => ∃ us vs,
    ts = .of .openParen :: (us ++ .of .comma :: (vs ++ [.of .closeParen])) ∧
      Derives .loose .expr us a.1 ∧ Derives .loose .expr vs a.2) ?_ ?_)
  · refine .mark (.part hx fun us e he => .mark (.part hx fun vs f hf => .mark (.pure ?_)))
    exact ⟨us, vs, rfl, he, hf⟩
  · rintro _ ⟨e, f⟩ ⟨us, vs, rfl, he, hf⟩
    refine .part hb fun ws body hbody => .spanned fun span => ?_
    simpa using Derives.range counter span he hf hbody

theorem builds_orWhens : Builds .orWhens (orWhens x b fuel) := by
  induction fuel with
  | zero => exact fun _ => .exhausted
  | succ fuel ih =>
    refine fun K => .test ?_ (.pure .noOrWhens)
    refine .quiet quiet_here fun start => .word (fun _ h => h.2) (.inParens hx fun ts e he => ?_)
    refine .part hb fun us body hbody => .quiet (quiet_finish _) fun span => ?_
    refine .part ih fun vs others hothers => .pure ?_
    simpa using Derives.orWhens span he hbody hothers

omit hx in
theorem builds_otherwise : Builds .otherwise (otherwise b) := by
  refine fun K => .test ?_ (.pure .noOtherwise)
  refine .quiet quiet_here fun start => .word (fun _ h => h.2) ?_
  refine .part hb fun us body hbody => .quiet (quiet_finish _) fun span => .pure ?_
  simpa using Derives.otherwise span hbody

theorem yields_conditional (hK : ∀ ls, K ls → front ls = .of .when) :
    Yields K (conditional x b fuel) (Derives .loose .statement) := by
  refine .quiet (quiet_enter _) fun _ => .quiet quiet_here fun start => .word hK ?_
  refine .inParens hx fun ts e he => .part hb fun us body hbody => ?_
  refine .part (builds_orWhens hx fuel hb) fun vs others hothers => ?_
  refine .part (builds_otherwise hb) fun ws last hlast => .spanned fun span => ?_
  simpa using Derives.when span he hbody hothers hlast

include hy

theorem builds_statementWith : Builds .statement (statementWith x y b fuel) := by
  refine fun K => .quiet (quiet_enter _) fun _ => .kind fun l hl => ?_
  cases hk : l.kind with
  | identifier => exact yields_nameStatement hx hy fuel
  | mark m =>
    obtain rfl := eq_of_kind_mark hl hk
    cases m with
    | giveBack => exact yields_giveBack hx fun _ h => h.2
    | loop => exact yields_loop hx hb fun _ h => h.2
    | range => exact yields_range hx hb fun _ h => h.2
    | when => exact yields_conditional hx fuel hb fun _ h => h.2
    | print => exact yields_print hx fuel false fun _ h => h.2
    | printLine => exact yields_print hx fuel true fun _ h => h.2
    | input => exact (builds_inputLine _).map fun _ _ h => .act h
    | closeFile => exact yields_fileVerb (fun _ h => h.2) _ fun file span => .closeFile file span
    | readFile => exact (builds_readFile hx fun _ h => h.2).map fun _ _ h => .act h
    | readLine =>
      exact (yields_fileVerb (fun _ h => h.2) _ fun file span => .readLine file span).map
        fun _ _ h => .act h
    | writeFile => exact yields_writeFile hx false fun _ h => h.2
    | writeLine => exact yields_writeFile hx true fun _ h => h.2
    | _ => exact .unexpected
  | _ => exact .unexpected

end Statements

section Blocks

variable {K : List Lexeme → Prop} {x : Parser Stmt} (hx : Builds .statement x) (fuel : Nat)
include hx

theorem builds_statements : Builds .statements (statements x fuel) := by
  induction fuel with
  | zero => exact fun _ => .exhausted
  | succ fuel ih =>
    refine fun K => .kind fun l _ => ?_
    split
    · refine .part hx fun ts first hfirst => yields_skipSemicolon.bind ?_
      rintro _ ⟨⟩ ⟨semicolon, rfl⟩
      refine .part ih fun us rest hrest => .pure ?_
      simpa using Derives.statements semicolon hfirst hrest (by rintro ⟨⟩)
    · exact .pure .noStatements

omit hx in
theorem yields_finalJump :
    Yields K finalJump fun ts ss => ts = [] ∧ ss = [] ∨ ∃ m jump semicolon span,
      jump? m = some jump ∧ ts = .of m :: semicolon? semicolon ∧ ss = [jump span] := by
  have hjump {K : List Lexeme → Prop} {m : Mark} {jump : Span → Stmt} (hm : jump? m = some jump)
      (hK : ∀ ls, K ls → front ls = .of m) :
      Yields K (Parser.jump jump) fun ts ss => ts = [] ∧ ss = [] ∨ ∃ m jump semicolon span,
        jump? m = some jump ∧ ts = .of m :: semicolon? semicolon ∧ ss = [jump span] := by
    refine .quiet quiet_here fun start => .word hK (.quiet (quiet_finish _) fun span => ?_)
    refine yields_skipSemicolon.bind ?_
    rintro _ ⟨⟩ ⟨semicolon, rfl⟩
    exact .pure (.inr ⟨m, jump, semicolon, span, hm, by simp, rfl⟩)
  refine .kind fun l hl => ?_
  cases hk : l.kind with
  | mark m =>
    obtain rfl := eq_of_kind_mark hl hk
    cases m with
    | leave => exact hjump rfl fun _ h => h.2
    | proceed => exact hjump rfl fun _ h => h.2
    | _ => exact .pure (.inl ⟨rfl, rfl⟩)
  | _ => exact .pure (.inl ⟨rfl, rfl⟩)

theorem builds_body (conditional : Bool) :
    Builds (.body conditional) (body x fuel conditional) := by
  refine fun K => .quiet (quiet_enter _) fun _ => .quiet quiet_here fun start => ?_
  refine .part (builds_statements hx fuel) fun ts ss hss => ?_
  cases conditional with
  | false => exact .spanned fun span => by simpa using Derives.body false span hss
  | true =>
    refine yields_finalJump.bind ?_
    rintro _ _ (⟨rfl, rfl⟩ | ⟨m, jump, semicolon, jumpSpan, hm, rfl, rfl⟩)
    · exact .spanned fun span => by simpa using Derives.body true span hss
    · exact .spanned fun span => by simpa using Derives.bodyJump jumpSpan span semicolon hss hm

theorem builds_braced (conditional : Bool) :
    Builds (.block conditional) (braced x fuel conditional) := by
  refine fun K => .mark (.part (builds_body hx fuel conditional) fun ts b hb => ?_)
  exact .mark (.pure (.block hb))

theorem builds_bracedOrSingle : Builds .main (bracedOrSingle x fuel) := by
  refine fun K => .test ?_ (.quiet quiet_here fun start => .kind fun l _ => ?_)
  · exact (builds_braced hx fuel false _).mono fun _ _ h => .braced h
  · split
    · exact .part hx fun ts s hs => .mark (.spanned fun span => .single span hs)
    · exact .unexpected

end Blocks

theorem builds_statement (fuel : Nat) : Builds .statement (statement fuel) := by
  induction fuel with
  | zero => exact fun _ => .exhausted
  | succ fuel ih =>
    exact builds_statementWith (builds_expression fuel) (builds_sumExpr fuel) fuel
      (builds_braced ih fuel true)

theorem builds_names (fuel : Nat) : Builds .names (commaList expectName fuel) := by
  induction fuel with
  | zero => exact fun _ => .exhausted
  | succ fuel ih =>
    refine fun K => .ident fun ident => .test (.word (fun _ h => h.2) ?_) (.pure (.oneName ident))
    refine .part ih fun us idents hidents => .pure ?_
    simpa using Derives.moreNames ident hidents

theorem builds_parameters (fuel : Nat) : Builds .parameters (optionalParameters fuel) := by
  refine fun K => .test ?_ (.pure .noParameters)
  rw [parameters_eq]
  refine .mark (.bind (P := fun ts idents =>
    ts = [] ∧ idents = [] ∨ Derives .loose .names ts idents) ?_ ?_)
  · exact .named ((builds_names fuel _).mono fun _ _ h => .inr h) (.pure (.inl ⟨rfl, rfl⟩))
  · rintro ts idents (⟨rfl, rfl⟩ | hidents)
    · exact .mark (.pure .emptyParameters)
    · exact .mark (.pure (.parameters hidents))

theorem builds_definition (fuel : Nat) : Builds .definition (definition fuel) := by
  intro K
  rw [definition_eq]
  refine .quiet (quiet_enter _) fun _ => .quiet quiet_here fun start => .mark ?_
  refine .ident fun ident => .part (builds_parameters fuel) fun ts params hparams => .mark ?_
  refine .part (builds_bracedOrSingle (builds_statement fuel) fuel) fun us b hb => ?_
  exact .spanned fun span => by simpa using Derives.definition ident span hparams hb

theorem builds_definitions {n : Nat} (fuel : Nat) :
    Builds .definitions (definitions (definition n) fuel) := by
  induction fuel with
  | zero => exact fun _ => .exhausted
  | succ fuel ih =>
    refine fun K => .test ?_ (.pure .noDefinitions)
    refine .part (builds_definition n) fun ts f hf => .part ih fun us fs hfs => .pure ?_
    simpa using Derives.definitions hf hfs

theorem yields_expectAll {K : List Lexeme → Prop} (marks : List Mark) :
    Yields K (expectAll marks) fun ts _ => ts = marks.map .of := by
  induction marks generalizing K with
  | nil => exact .pure rfl
  | cons m marks ih =>
    refine .mark (ih.mono ?_)
    rintro _ ⟨⟩ rfl
    rfl

theorem lexemes_eq_nil {s : State} (h : s.current.kind = .endOfInput) : s.lexemes = [] := by
  simp [State.lexemes, State.left, h]

/-- The functions and the body of a program. -/
def programParts (fuel : Nat) : Parser (List FuncDef × Body) := do
  enter "<Program>"
  let functions ← definitions (definition fuel) fuel
  expectAll [.main, .openParen, .closeParen, .arrow]
  let b ← bracedOrSingle (statement fuel) fuel
  pure (functions, b)

/-- A program whose first token was fetched. -/
def fetchedProgram (fuel : Nat) : Parser Program := do
  let start ← here
  if ← at? .endOfInput then pure ⟨[], none, .point start⟩
  else
    enter "<Program>"
    let functions ← definitions (definition fuel) fuel
    expectAll [.main, .openParen, .closeParen, .arrow]
    let b ← bracedOrSingle (statement fuel) fuel
    expect .endOfInput
    pure ⟨functions, b, ← finish start⟩

theorem fetchedProgram_eq (fuel : Nat) : fetchedProgram fuel = (do
    let start ← here
    if ← at? .endOfInput then pure ⟨[], none, .point start⟩
    else
      let parts ← programParts fuel
      expect .endOfInput
      pure ⟨parts.1, parts.2, ← finish start⟩) := by
  unfold fetchedProgram programParts
  simp only [bind_assoc, pure_bind]

theorem yields_programParts {K : List Lexeme → Prop} (fuel : Nat) :
    Yields K (programParts fuel) fun ts v => Derives .loose .program ts ⟨v.1, v.2, {}⟩ := by
  refine .quiet (quiet_enter _) fun _ => .part (builds_definitions fuel) fun ts fs hfs => ?_
  refine (yields_expectAll _).bind ?_
  rintro _ - rfl
  refine .part (builds_bracedOrSingle (builds_statement fuel) fuel) fun us b hb => .pure ?_
  simpa using Derives.program {} hfs hb

theorem at_end_of_expect {s s' : State} (h : expect .endOfInput s = .ok () s') :
    s.current.kind = .endOfInput ∧ advance s = .ok () s' := by
  rw [expect, Step.bind_apply, at?, Step.gets] at h
  dsimp only at h
  by_cases hk : s.current.kind = .endOfInput
  · rw [hk, if_pos (by rfl)] at h
    exact ⟨hk, h⟩
  · rw [if_neg (by simpa using hk)] at h
    cases h

/-- A program is nothing at all, or its parts and then the end of the input. -/
theorem fetchedProgram_cases {fuel : Nat} {s s' : State} {p : Program}
    (h : fetchedProgram fuel s = .ok p s') :
    s.current.kind = .endOfInput ∧ p = ⟨[], none, .point s.current.start⟩ ∨
      ∃ fs b s₁, programParts fuel s = .ok (fs, b) s₁ ∧ s₁.current.kind = .endOfInput ∧
        advance s₁ = .ok () s' ∧ p = ⟨fs, some b, s.current.start,
          if s'.lastStop.isUnknown then s.current.start else s'.lastStop⟩ := by
  rw [fetchedProgram_eq] at h
  obtain ⟨start, _, hhere, h⟩ := Step.bind_eq_ok h
  obtain ⟨ended, _, hended, h⟩ := Step.bind_eq_ok h
  cases hhere
  cases hended
  split at h
  · next hend =>
    cases h
    exact .inl ⟨by simpa using hend, rfl⟩
  · obtain ⟨⟨fs, b⟩, s₁, hparts, h⟩ := Step.bind_eq_ok h
    obtain ⟨_, s₂, hend, h⟩ := Step.bind_eq_ok h
    cases h
    obtain ⟨hk, hadvance⟩ := at_end_of_expect hend
    exact .inr ⟨fs, b, s₁, hparts, hk, hadvance, rfl⟩

/-- The span of a program does not matter for what it stands for. -/
theorem derives_program_span {d : Dialect} {ts : List Lexeme} {fs : List FuncDef} {b : Option Body}
    {span : Span} (span' : Span) (h : Derives d .program ts ⟨fs, b, span⟩) :
    Derives d .program ts ⟨fs, b, span'⟩ := by
  cases h with
  | noProgram => exact .noProgram span'
  | program _ hfs hb => exact .program span' hfs hb

/-- A program and nothing else is parsed. -/
theorem derives_of_fetchedProgram {fuel : Nat} {s s' : State} {p : Program} (hs : s.Proper)
    (h : fetchedProgram fuel s = .ok p s') : Derives .loose .program s.lexemes p := by
  obtain ⟨hk, rfl⟩ | ⟨fs, b, s₁, hparts, hk, -, rfl⟩ := fetchedProgram_cases h
  · rw [lexemes_eq_nil hk]
    exact .noProgram _
  · obtain ⟨-, -, ts, hts, hp⟩ :=
      yields_programParts fuel (K := fun _ => True) s (fs, b) s₁ hs trivial hparts
    rw [hts, lexemes_eq_nil hk, List.append_nil]
    exact derives_program_span _ hp

/-- What the tokens of a text say. -/
def lexemesOf (limits : Token.Limits) (text : Bytes) : List Lexeme :=
  (Token.tokenize limits text).tokens.map fun t => t.lexeme.said

/-- The tokens of a program stand for what is parsed. -/
theorem derives_of_parseProgram {limits : Token.Limits} {text : Bytes} {p : Program} {s : State}
    (h : parseProgram limits text = .ok p s) :
    Derives .loose .program (lexemesOf limits text) p := by
  obtain ⟨_, s₁, hadvance, h⟩ := Step.bind_eq_ok h
  obtain ⟨s₁', hfetch, hs₁, hleft, -⟩ | ⟨-, f, -, hfault⟩ :=
    fetch (properScan_scanAll limits ((Token.Cursor.ofText text).rest.length + 1) (.ofText text))
  · cases hadvance.symm.trans hfetch
    have hprogram := derives_of_fetchedProgram hs₁ h
    rw [State.lexemes, hleft] at hprogram
    exact hprogram
  · cases hadvance.symm.trans hfault

end Kotoba.Syntax
