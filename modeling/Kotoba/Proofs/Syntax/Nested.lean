import Kotoba.Proofs.Syntax.Whole

/-! Spans nest. In a tree that was parsed, every part spans a piece of the text, in which the spans
of its children stand one after another. Only a body without statements stops before it starts. -/
namespace Kotoba

namespace Span

/-- An end of a span. -/
def Ends (span : Span) (p : Position) : Prop := p = span.start ∨ p = span.stop

/-- A span both ends of which are in another. -/
def Within (inner outer : Span) : Prop := ∀ p, inner.Ends p → outer.start.Le p ∧ p.Le outer.stop

/-- A span both ends of which are before both ends of another. -/
def Before (first second : Span) : Prop := ∀ p q, first.Ends p → second.Ends q → p.Lt q

theorem before_of_lt {s t : Span} (hs : s.start.Le s.stop) (ht : t.start.Le t.stop)
    (h : s.stop.Lt t.start) : s.Before t := by
  have hstart : ∀ p, s.Ends p → p.Lt t.start := by
    rintro p (rfl | rfl)
    · exact hs.trans_lt h
    · exact h
  rintro p q hp (rfl | rfl)
  · exact hstart p hp
  · exact (hstart p hp).trans_le ht

end Span

namespace Node

theorem program_not_mem_children (n : Node) (p : Program) : .program p ∉ n.children := by
  cases n with
  | program p => cases p; simp
  | function f => cases f; simp [Ident.node]
  | body b => simp
  | stmt s => cases s <;> simp [Ident.node]
  | expr e => cases e <;> simp [Ident.node, Prompt.node]
  | orWhen branch => simp
  | otherwise branch => simp
  | operator o => simp

theorem eq_body_of_isBlank {n : Node} (h : n.isBlank) (hn : ∀ p, n ≠ .program p) :
    ∃ span, n = .body ⟨[], span⟩ := by
  cases n with
  | program p => exact absurd rfl (hn p)
  | body b =>
    obtain ⟨ss, span⟩ := b
    obtain rfl := List.isEmpty_iff.mp h
    exact ⟨span, rfl⟩
  | _ => cases h

end Node

namespace Token

/-- What the tokens from number `i` on say. -/
def Scan.saidFrom (a : Scan) (i : Nat) : List Lexeme :=
  (a.tokens.drop i).map fun t => t.lexeme.said

variable {limits : Limits} {text : Bytes} {i j : Nat} {t u : Token}
  (ht : (tokenize limits text).token? i = some t) (hu : (tokenize limits text).token? j = some u)
include ht

theorem start_le_stop : t.start.Le t.stop := (tokenize_ordered (Nat.le_refl i) ht ht).le

theorem ends_in_chars : t.start.In text.chars ∧ t.stop.In text.chars := by
  obtain ⟨m, n, hmn, hn, hstart, hstop⟩ := tokenize_ordered (Nat.le_refl i) ht ht
  exact ⟨⟨m, Nat.le_trans hmn hn, hstart⟩, n, hn, hstop⟩

include hu

/-- A token of the text, up to its end, is before all that come after it. -/
theorem span_before (hij : i < j) (hi : i < (tokenize limits text).tokens.length) :
    t.span.Before u.span := by
  rw [Scan.token?, List.getElem?_eq_getElem hi] at ht
  have hget := (List.getElem?_eq_getElem hi).trans ht
  have htoken : (tokenize limits text).token? i = some t := by rw [Scan.token?, hget]
  exact Span.before_of_lt (start_le_stop htoken) (start_le_stop hu) (tokenize_before hij hget hu)

/-- The ends of tokens are in the order of the tokens. -/
theorem ends_le (hij : i ≤ j) : t.start.Le u.start ∧ t.stop.Le u.stop := by
  by_cases hi : i < (tokenize limits text).tokens.length
  · obtain hij | rfl := Nat.lt_or_eq_of_le hij
    · have hbefore := span_before ht hu hij hi
      exact ⟨(hbefore _ _ (.inl rfl) (.inl rfl)).le, (hbefore _ _ (.inr rfl) (.inr rfl)).le⟩
    · cases ht.symm.trans hu
      exact ⟨.refl _, .refl _⟩
  · -- after the last token there is none but the end of the input
    have hi := Nat.le_of_not_lt hi
    rw [Scan.token?, List.getElem?_eq_none hi] at ht
    rw [Scan.token?, List.getElem?_eq_none (Nat.le_trans hi hij)] at hu
    cases ht.symm.trans hu
    exact ⟨.refl _, .refl _⟩

theorem start_le_ends (hij : i ≤ j) {p : Position} (hp : u.span.Ends p) : t.start.Le p := by
  obtain rfl | rfl := hp
  · exact (ends_le ht hu hij).1
  · exact (tokenize_ordered hij ht hu).le

theorem ends_le_stop (hij : i ≤ j) {p : Position} (hp : t.span.Ends p) : p.Le u.stop := by
  obtain rfl | rfl := hp
  · exact (tokenize_ordered hij ht hu).le
  · exact (ends_le ht hu hij).2

end Token

namespace Syntax

open Token (Scan tokenize)
open Kotoba.Syntax.Parser

namespace Spans

variable {limits : Token.Limits} {text : Bytes} {k l k' l' : Nat} {s s' : Span}

/-- The ends of a span are those of its first token and its last one. -/
theorem ends (h : Spans (tokenize limits text) k l s) (hl : 0 < l) {p : Position} (hp : s.Ends p) :
    ∃ i t, (i = k ∨ i = l - 1) ∧ (tokenize limits text).token? i = some t ∧ t.span.Ends p := by
  obtain rfl | rfl := hp
  · obtain ⟨t, ht, hstart⟩ := h.starts
    exact ⟨k, t, .inl rfl, ht, .inl hstart⟩
  · obtain ⟨hl', -⟩ | ⟨t, -, ht, hstop⟩ := h.stops
    · omega
    · exact ⟨l - 1, t, .inr rfl, ht, .inr hstop⟩

theorem within (hs : Spans (tokenize limits text) k l s)
    (hs' : Spans (tokenize limits text) k' l' s') (hkk : k ≤ k') (hkl : k' < l) (hlk : k < l')
    (hll : l' ≤ l) : s'.Within s := by
  intro p hp
  obtain ⟨i, t, hi, ht, hp⟩ := hs'.ends (by omega) hp
  obtain ⟨first, hfirst, hstart⟩ := hs.starts
  obtain ⟨hl, -⟩ | ⟨last, -, hlast, hstop⟩ := hs.stops
  · omega
  · rw [hstart, hstop]
    exact ⟨Token.start_le_ends hfirst ht (by omega) hp,
      Token.ends_le_stop ht hlast (by omega) hp⟩

/-- A span that starts and stops before token `f` is before one that starts and stops after it. -/
theorem before {f : Nat} (hs : Spans (tokenize limits text) k l s)
    (hs' : Spans (tokenize limits text) k' l' s') (hl : 0 < l) (hkf : k < f) (hlf : l ≤ f)
    (hfk : f ≤ k') (hfl : f < l') (hf : f ≤ (tokenize limits text).tokens.length) :
    s.Before s' := by
  intro p q hp hq
  obtain ⟨i, t, hi, ht, hp⟩ := hs.ends hl hp
  obtain ⟨j, u, hj, hu, hq⟩ := hs'.ends (by omega) hq
  exact Token.span_before ht hu (by omega) (by omega) p q hp hq

theorem in_chars (h : Spans (tokenize limits text) k l s) :
    s.start.In text.chars ∧ s.stop.In text.chars := by
  obtain ⟨t, ht, hstart⟩ := h.starts
  have hin := (Token.ends_in_chars ht).1
  rw [hstart]
  obtain ⟨-, hstop⟩ | ⟨u, -, hu, hstop⟩ := h.stops
  · rw [hstop, hstart]
    exact ⟨hin, hin⟩
  · rw [hstop]
    exact ⟨hin, (Token.ends_in_chars hu).2⟩

end Spans

/-- A tree that spans the tokens from number `k` on and before number `l`, and whose children take
none but tokens of the text: the end of the input, which a program spans too, is not among them. -/
structure Spread (a : Scan) (k l : Nat) (n : Node) : Prop where
  order : k ≤ l
  blank : k = l → l = 0 ∨ ∃ span, n = .body ⟨[], span⟩
  span : Spans a k l n.span
  inner : ∃ m, m ≤ l ∧ m ≤ a.tokens.length ∧ Lies a k m n.children

theorem Stretches.spread {a : Scan} {k l : Nat} {n : Node} (h : Stretches a k l n)
    (hn : ∀ p, n ≠ .program p) (hl : l ≤ a.tokens.length) : Spread a k l n :=
  ⟨h.order, fun hkl => .inr (Node.eq_body_of_isBlank (h.blank hkl) hn), h.span,
    l, Nat.le_refl l, hl, h.inner⟩

namespace Spread

theorem part {a : Scan} {k l : Nat} {root n : Node} (h : Spread a k l root) (hn : root.Part n) :
    ∃ k l, Spread a k l n := by
  induction hn with
  | self => exact ⟨k, l, h⟩
  | @child n m _ hc ih =>
    obtain ⟨k, l, -, -, -, j, -, hj, hlies⟩ := ih
    obtain ⟨k', l', -, hl', hextent⟩ := hlies.rests hc
    refine ⟨k', l', hextent.spread ?_ (Nat.le_trans hl' hj)⟩
    rintro p rfl
    exact Node.program_not_mem_children n p hc

variable {limits : Token.Limits} {text : Bytes} {k l : Nat} {n : Node}

theorem order_span (h : Spread (tokenize limits text) k l n) :
    n.span.start.Le n.span.stop ∨
      (∃ span, n = .body ⟨[], span⟩) ∧ n.span.stop.Lt n.span.start := by
  obtain ⟨m, -, hm, hlies⟩ := h.inner
  have hkm := hlies.le
  obtain ⟨t, ht, hstart⟩ := h.span.starts
  obtain ⟨-, hstop⟩ | ⟨u, hl, hu, hstop⟩ := h.span.stops
  · rw [hstop]
    exact .inl (.refl _)
  · rw [hstart, hstop]
    obtain hkl | hkl := Nat.lt_or_eq_of_le h.order
    · exact .inl (Token.tokenize_ordered (Nat.le_sub_one_of_lt hkl) ht hu).le
    · have hbefore := Token.span_before hu ht (by omega) (by omega)
      exact .inr ⟨(h.blank hkl).resolve_left (by omega), hbefore _ _ (.inr rfl) (.inl rfl)⟩

theorem children_within (h : Spread (tokenize limits text) k l n) :
    ∀ m ∈ n.children, m.span.Within n.span := by
  intro m hm
  obtain ⟨j, hj, -, hlies⟩ := h.inner
  obtain ⟨k', l', hkk, hkj, hkl, hlj, hextent⟩ := hlies.sits hm
  exact h.span.within hextent.span hkk (by omega) hkl (by omega)

theorem children_before (h : Spread (tokenize limits text) k l n) :
    n.children.Pairwise fun m o => m.span.Before o.span := by
  obtain ⟨j, -, hj, hlies⟩ := h.inner
  refine hlies.pairwise.imp ?_
  rintro m o ⟨f, -, hfj, ⟨k₁, l₁, -, hkf, hl, hlf, hm⟩, k₂, l₂, hfk, -, hfl, -, ho⟩
  exact hm.span.before ho.span (by omega) hkf hlf hfk hfl (by omega)

end Spread

/-- The end of the input was not taken in as long as it is not spent. -/
theorem At.le_length {a : Scan} {j : Nat} {s : State} (hs : At a j s) (hu : s.Unspent) :
    j ≤ a.tokens.length := by
  obtain ⟨rfl, -⟩ | ⟨t, hj, ht, hlast⟩ := hs.last
  · exact Nat.zero_le _
  · refine Nat.le_of_not_lt fun hlt => ?_
    have he := (Scan.token?_of_length_le (Nat.le_sub_one_of_lt hlt)).mp ht
    exact (hu t (hs.ending.trans he)).1 hlast

/-- A scan that ends with the end of the input, or with a fault. No token of it stops where it
ends. -/
structure Regular (a : Scan) : Prop where
  known : a.Known
  proper : ProperScan a
  fresh : ∀ e, a.ending = .ok e → ∀ t ∈ a.tokens, t.stop ≠ e.stop

/-- A token is one of the tokens before the end, or the end of the input. -/
theorem Regular.token_cases {a : Scan} {i : Nat} {t : Token} (ha : Regular a)
    (ht : a.token? i = some t) :
    (a.tokens[i]? = some t ∧ t.kind ≠ .endOfInput) ∨
      a.tokens.length ≤ i ∧ t.kind = .endOfInput := by
  by_cases hi : i < a.tokens.length
  · have hget := List.getElem?_eq_getElem hi
    rw [Scan.token?, hget] at ht
    cases ht
    exact .inl ⟨hget, ha.proper.tokens _ (List.getElem_mem hi)⟩
  · have hi := Nat.le_of_not_lt hi
    exact .inr ⟨hi, ha.proper.ending t ((Scan.token?_of_length_le hi).mp ht)⟩

theorem Regular.getElem_of_ne {a : Scan} {i : Nat} {t : Token} (ha : Regular a)
    (ht : a.token? i = some t) (hk : t.kind ≠ .endOfInput) : a.tokens[i]? = some t := by
  obtain ⟨hget, -⟩ | ⟨-, hend⟩ := ha.token_cases ht
  · exact hget
  · exact absurd hend hk

namespace At

variable {a : Scan} {i : Nat} {s : State} (ha : Regular a) (hs : At a i s)
include ha hs

/-- At a token, the tokens that are left are those from that token on. -/
theorem left : s.left = a.tokens.drop i := by
  rw [State.left, hs.ahead]
  obtain ⟨hget, hne⟩ | ⟨hi, hend⟩ := ha.token_cases hs.current
  · obtain ⟨hi, hget⟩ := List.getElem?_eq_some_iff.mp hget
    rw [if_neg hne, List.drop_eq_getElem_cons hi, hget]
  · rw [if_pos hend, List.drop_eq_nil_of_le hi]

theorem lexemes : s.lexemes = a.saidFrom i := by
  rw [State.lexemes, hs.left ha, Scan.saidFrom]

theorem proper : s.Proper := by
  constructor
  · intro t ht
    rw [hs.ahead] at ht
    exact ha.proper.tokens t (List.mem_of_mem_drop ht)
  · intro t ht
    exact ha.proper.ending t (hs.ending ▸ ht)
  · intro hend
    obtain ⟨-, hne⟩ | ⟨hi, -⟩ := ha.token_cases hs.current
    · exact absurd hend hne
    · constructor
      · rw [hs.ahead, List.drop_eq_nil_of_le (Nat.le_succ_of_le hi)]
      · rw [State.clean, hs.ending, (Scan.token?_of_length_le hi).mp hs.current]

/-- As long as no more than the tokens of the text were taken in, its end is not spent. -/
theorem unspent (hi : i ≤ a.tokens.length) : s.Unspent := by
  intro e he
  rw [hs.ending] at he
  constructor
  · have hend := (Scan.token?_of_length_le (Nat.le_refl _)).mpr he
    obtain ⟨-, hunknown⟩ | ⟨t, h0, ht, hlast⟩ := hs.last
    · intro hlast
      rw [hlast, ha.known _ _ hend] at hunknown
      cases hunknown
    · obtain ⟨hget, -⟩ | ⟨hlength, -⟩ := ha.token_cases ht
      · rw [hlast]
        exact ha.fresh e he t (List.mem_of_getElem? hget)
      · omega
  · intro t ht
    rw [hs.left ha] at ht
    exact ha.fresh e he t (List.mem_of_mem_drop ht)

end At

section Texts

variable {limits : Token.Limits} {text : Bytes}

/-- No token of a text stops where the text does. -/
theorem stop_ne_of_mem {t e : Token} (he : (tokenize limits text).ending = .ok e)
    (ht : t ∈ (tokenize limits text).tokens) : t.stop ≠ e.stop := by
  have hend := (Scan.token?_of_length_le (Nat.le_refl _)).mpr he
  obtain ⟨i, hi, rfl⟩ := List.mem_iff_getElem.mp ht
  have hget := List.getElem?_eq_getElem hi
  have htoken : (tokenize limits text).token? i = some (tokenize limits text).tokens[i] := by
    rw [Scan.token?, hget]
  exact (Token.span_before htoken hend hi hi _ _ (.inr rfl) (.inr rfl)).ne

theorem regular_tokenize (limits : Token.Limits) (text : Bytes) :
    Regular (tokenize limits text) where
  known := Token.known_tokenize limits text
  proper := properScan_scanAll _ _ _
  fresh _ he _ ht := stop_ne_of_mem he ht

/-- An entry is parsed from the first token of the text on. -/
theorem entryNode_of_parseEntry {n : Node} {s : State}
    (h : parseEntry limits text = .ok (some n) s) :
    ∃ s₁ s₂, At (tokenize limits text) 0 s₁ ∧
      entryNode ((tokenize limits text).tokens.length + 2) s₁ = .ok n s₂ := by
  obtain ⟨s₀, s₁, s₂, hfetch, henter, hnode, -⟩ := parseEntry_cases h
  obtain ⟨-, -, hat⟩ := fetched_text hfetch
  refine ⟨s₁, s₂, ?_, hnode⟩
  cases henter
  exact ⟨hat.current, hat.ahead, hat.ending, hat.last⟩

theorem spread_of_parseEntry {n : Node} {s : State} (h : parseEntry limits text = .ok (some n) s) :
    ∃ k l, Spread (tokenize limits text) k l n := by
  have ha := regular_tokenize limits text
  obtain ⟨s₁, s₂, hat, hnode⟩ := entryNode_of_parseEntry h
  generalize (tokenize limits text).tokens.length + 2 = fuel at hnode
  obtain ⟨-, hunspent, ts, -, hderives⟩ :=
    yields_entryNode (K := fun _ => True) fuel s₁ n s₂ (hat.proper ha) trivial hnode
  have hgoes := lays_entryNode ha.known fuel s₁ hat
  rw [hnode] at hgoes
  cases hgoes with
  | @ok j _ _ _ hat₂ result =>
    have hj := hat₂.le_length (hunspent (hat.unspent ha (Nat.zero_le _)))
    obtain ⟨⟨k, l, -, hl, hextent⟩, hwhole⟩ := result
    refine ⟨k, l, hextent.spread ?_ (Nat.le_trans hl hj)⟩
    rintro p rfl
    cases hderives

theorem spread_of_parseProgram {p : Program} {s : State} (h : parseProgram limits text = .ok p s) :
    ∃ k l, Spread (tokenize limits text) k l (.program p) := by
  have ha := regular_tokenize limits text
  obtain ⟨s₁, hfetch, hprogram⟩ := parseProgram_cases h
  obtain ⟨-, -, hat⟩ := fetched_text hfetch
  have hstarts : Starts (tokenize limits text) 0 s₁.current.start := ⟨s₁.current, hat.current, rfl⟩
  generalize (tokenize limits text).tokens.length + 2 = fuel at hprogram
  obtain ⟨-, rfl⟩ | ⟨fs, b, s₂, hparts, -, hadvance, rfl⟩ := fetchedProgram_cases hprogram
  · exact ⟨0, 0, Nat.le_refl 0, fun _ => .inl rfl, ⟨hstarts, .inl ⟨rfl, rfl⟩⟩,
      0, Nat.le_refl 0, Nat.zero_le _, .nil (Nat.le_refl 0)⟩
  · obtain ⟨-, hunspent, -⟩ :=
      yields_programParts (K := fun _ => True) fuel s₁ (fs, b) s₂ (hat.proper ha) trivial hparts
    have hgoes := lays_programParts ha.known fuel s₁ hat
    rw [hparts] at hgoes
    cases hgoes with
    | @ok j _ _ _ hat₂ result =>
      have hj := hat₂.le_length (hunspent (hat.unspent ha (Nat.zero_le _)))
      have hknown : s₂.current.stop.isUnknown = false := ha.known _ _ hat₂.current
      refine ⟨0, j + 1, Nat.zero_le _, fun h => absurd h (Nat.ne_of_lt (Nat.succ_pos j)), ?_,
        j, Nat.le_succ j, hj, result⟩
      refine ⟨hstarts, .inr ⟨s₂.current, Nat.succ_pos j, hat₂.current, ?_⟩⟩
      simp only [Node.span, (lastStop_of_advance hadvance).1, hknown, Bool.false_eq_true, if_false]

theorem StandsFor.spread {n : Node} (h : StandsFor limits text n) :
    ∃ k l, Spread (tokenize limits text) k l n := by
  obtain ⟨p, s, hp, rfl⟩ | ⟨s, hn⟩ := h
  · exact spread_of_parseProgram hp
  · exact spread_of_parseEntry hn

/-- In a tree that a text stands for, each part spans a piece of the text, and its children span
pieces of that, one after another. A part does not stop before it starts, unless it is a body
without statements. -/
theorem spans_nested {root n : Node} (h : StandsFor limits text root) (hn : root.Part n) :
    (n.span.start.In text.chars ∧ n.span.stop.In text.chars) ∧
      (n.span.start.Le n.span.stop ∨
        (∃ span, n = .body ⟨[], span⟩) ∧ n.span.stop.Lt n.span.start) ∧
      (∀ m ∈ n.children, m.span.Within n.span) ∧
      n.children.Pairwise fun m o => m.span.Before o.span := by
  obtain ⟨_, _, hroot⟩ := h.spread
  obtain ⟨k, l, hspread⟩ := hroot.part hn
  exact ⟨hspread.span.in_chars, hspread.order_span, hspread.children_within,
    hspread.children_before⟩

/-- A definition with an empty body, which stops before it starts. -/
theorem spans_nested_braces :
    let text : Bytes := "kawaii f(x) => {}"
    ∃ n m, StandsFor {} text n ∧ n.Part m ∧ n.span = ⟨⟨1, 1⟩, ⟨1, 17⟩⟩ ∧
      m.span = ⟨⟨1, 17⟩, ⟨1, 16⟩⟩ ∧ (∃ span, m = .body ⟨[], span⟩) ∧ m.span.Within n.span ∧
      n.children.Pairwise fun m o => m.span.Before o.span := by
  intro text
  have hcheck : ((entryOf? {} text).bind fun n => n.children[2]?.map fun m =>
      decide (n.span = ⟨⟨1, 1⟩, ⟨1, 17⟩⟩ ∧ m.span = ⟨⟨1, 17⟩, ⟨1, 16⟩⟩)) = some true := by
    decide +kernel
  obtain ⟨n, hn, hcheck⟩ := Option.bind_eq_some_iff.mp hcheck
  obtain ⟨m, hm, hspans⟩ := Option.map_eq_some_iff.mp hcheck
  obtain ⟨hspan, hspan'⟩ := of_decide_eq_true hspans
  have hstands : StandsFor {} text n := .inr (entryOf?_eq_some.mp hn)
  have hchild : m ∈ n.children := List.mem_of_getElem? hm
  obtain ⟨-, -, hwithin, hbefore⟩ := spans_nested hstands .self
  obtain ⟨-, hle | ⟨hbody, -⟩, -⟩ := spans_nested hstands (.child .self hchild)
  · rw [hspan'] at hle
    exact absurd hle (by decide)
  · exact ⟨n, m, hstands, .child .self hchild, hspan, hspan', hbody, hwithin m hchild, hbefore⟩

end Texts

end Syntax

end Kotoba
