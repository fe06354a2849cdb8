import Kotoba.Proofs.Syntax.Reads

/-! Productions that can be completed from nothing. Such productions are put in sequence without
more ado; what may come after one and what the next one starts with have to fit. -/
namespace Kotoba.Syntax

open Token (Kind)

variable {α β ι : Type}

/-- How a production takes in tokens, and which tokens it is content with. -/
structure Takes (n : Nat) (n' : ι → Nat) (K : List Kind → Prop) (follow : Follow)
    (fill : List Kind) (eats : Bool) (x : Parser α) (y : ι → Parser α) : Prop where
  reads : Reads n n' K follow eats x y
  fills : ∀ i, Fills (n' i) follow fill (y i)
  fillers : ∀ k ∈ fill, k ∈ fillers

variable {n m : Nat} {n' m' : ι → Nat} {K : List Kind → Prop} {follow before : Follow}
  {fill more : List Kind} {eats eats' : Bool}

section Eating

variable [Nonempty α] {x : Parser α} {y : ι → Parser α} {f : α → Parser β} {g : ι → α → Parser β}

/-- A production after one that anything may follow. -/
theorem Reads.andThen (hx : Reads n n' K none true x y)
    (hf : ∀ a, Takes n (fun p : ι × α => n' p.1) (fun _ => True) follow fill eats (f a)
      fun p => g p.1 p.2) :
    Reads n n' K follow true (x >>= f) fun i => y i >>= g i := by
  obtain ⟨a⟩ := ‹Nonempty α›
  exact hx.seq (fun a => (hf a).reads) (fun i b => (hf b).fills (i, b)) (hf a).fillers
    Follow.joins_any fun _ _ _ => trivial

/-- A production after one that eats and that anything may follow; there are fewer tokens to come
for it. -/
theorem Reads.eat (hx : Reads (n + 1) (n' · + 1) K none true x y)
    (hf : ∀ a, Takes n (fun p : ι × α => n' p.1) (fun _ => True) follow fill eats (f a)
      fun p => g p.1 p.2) :
    Reads (n + 1) (n' · + 1) K follow true (x >>= f) fun i => y i >>= g i := by
  obtain ⟨a⟩ := ‹Nonempty α›
  exact hx.bind (fun a => (hf a).reads) (fun i b => (hf b).fills (i, b)) (hf a).fillers
    Follow.joins_any (fun _ _ _ => trivial) (Nat.le_refl _) fun _ => Nat.le_refl _

omit [Nonempty α] in
/-- A production that needs nothing after one that eats. -/
theorem Reads.eat_goOn (hx : Reads (n + 1) (n' · + 1) K before true x y)
    (hf : ∀ a, Takes n (fun p : ι × α => n' p.1) (fun _ => True) follow [] false (f a)
      fun p => g p.1 p.2)
    (hb : ∀ k, follow.Has k → before.Has k) :
    Reads (n + 1) (n' · + 1) K follow true (x >>= f) fun i => y i >>= g i :=
  hx.bind (fun a => (hf a).reads) (fun i b => (hf b).fills (i, b))
    (fun _ hk => absurd hk List.not_mem_nil) (Follow.joins_nil hb) (fun _ => hb) (Nat.le_refl _)
    fun _ => Nat.le_refl _

end Eating

/-- A production succeeds on what it is content with. -/
theorem Reads.succeeds {x : Parser α} {y : ι → Parser α} (h : Reads n n' K follow true x y)
    (hx : Fills n before fill x) {s : State} (hs : s.Proper) (hc : s.clean) (hk : s.kinds = fill)
    (hb : before.Has .endOfInput) (hK : K s.kinds) (hlen : s.kinds.length < n) :
    ∃ a s', x s = .ok a s' ∧ Succeeds n' follow true y s s' := by
  obtain ⟨a, s', ha, -⟩ := hx s [] hs hc (by rw [hk, List.append_nil]) hb hlen
  have hxs := h s hs hK hlen
  rw [ha] at hxs
  exact ⟨a, s', ha, hxs⟩

/-- A test for a kind of token that may not follow fails where nothing is to be taken in. -/
theorem Fills.test {k : Kind} (hf : ¬ follow.Has k) {p q : Parser α} (hq : Fills n follow [] q) :
    Fills n follow [] (Parser.at? k >>= fun b => if b then p else q) := by
  refine Fills.choose_nil (p := fun κ => if κ == k then p else q) fun κ hκ => ?_
  have hne : (κ == k) = false := by
    simp only [beq_eq_false_iff_ne]
    rintro rfl
    exact hf hκ
  rw [hne]
  exact hq

namespace Takes

section Sequence

variable [Nonempty α] {x : Parser α} {y : ι → Parser α} {f : α → Parser β} {g : ι → α → Parser β}

/-- One production after another. -/
theorem bind (hx : Takes n n' K before fill eats x y)
    (hf : ∀ a, Takes n (fun p : ι × α => n' p.1) (fun _ => True) follow more eats' (f a)
      fun p => g p.1 p.2)
    (hj : before.Joins more follow) (he : eats' = false → ∀ k, follow.Has k → before.Has k) :
    Takes n n' K follow (fill ++ more) (eats || eats') (x >>= f) fun i => y i >>= g i := by
  obtain ⟨a⟩ := ‹Nonempty α›
  refine ⟨?_, fun i => ?_, ?_⟩
  · exact hx.reads.seq (fun a => (hf a).reads) (fun i b => (hf b).fills (i, b)) (hf a).fillers hj he
  · exact (hx.fills i).seq (fun b => (hf b).fills (i, b)) hj
  · simpa [or_imp, forall_and] using ⟨hx.fillers, (hf a).fillers⟩

/-- A production after one that anything may follow. -/
theorem andThen (hx : Takes n n' K none fill eats x y)
    (hf : ∀ a, Takes n (fun p : ι × α => n' p.1) (fun _ => True) follow more eats' (f a)
      fun p => g p.1 p.2) :
    Takes n n' K follow (fill ++ more) (eats || eats') (x >>= f) fun i => y i >>= g i :=
  hx.bind hf Follow.joins_any fun _ _ _ => trivial

/-- A production that begins with a token after one that may be followed by it. -/
theorem upTo {k : Kind} (hx : Takes n n' K before fill eats x y)
    (hf : ∀ a, Takes n (fun p : ι × α => n' p.1) (fun _ => True) follow (k :: more) true (f a)
      fun p => g p.1 p.2)
    (hk : before.Has k) :
    Takes n n' K follow (fill ++ k :: more) true (x >>= f) fun i => y i >>= g i := by
  rw [← Bool.or_true eats]
  exact hx.bind hf (Follow.joins_cons hk) fun h => nomatch h

/-- A production that needs nothing after another one. -/
theorem goOn_of (hx : Takes n n' K before fill eats x y)
    (hf : ∀ a, Takes n (fun p : ι × α => n' p.1) (fun _ => True) follow [] false (f a)
      fun p => g p.1 p.2)
    (hb : ∀ k, follow.Has k → before.Has k) :
    Takes n n' K follow fill eats (x >>= f) fun i => y i >>= g i := by
  rw [← List.append_nil fill, ← Bool.or_false eats]
  exact hx.bind hf (Follow.joins_nil hb) fun _ => hb

theorem goOn (hx : Takes n n' K follow fill eats x y)
    (hf : ∀ a, Takes n (fun p : ι × α => n' p.1) (fun _ => True) follow [] false (f a)
      fun p => g p.1 p.2) :
    Takes n n' K follow fill eats (x >>= f) fun i => y i >>= g i :=
  hx.goOn_of hf fun _ h => h

/-- A production after a step that consumes nothing. -/
theorem quiet (hx : x.Quiet) (hy : ∀ i, (y i).Quiet)
    (hf : ∀ a, Takes n (fun p : ι × α => n' p.1) K follow fill eats (f a)
      fun p => g p.1 p.2) :
    Takes n n' K follow fill eats (x >>= f) fun i => y i >>= g i := by
  obtain ⟨a⟩ := ‹Nonempty α›
  exact ⟨.quiet hx hy fun a => (hf a).reads,
    fun i => .quiet (hy i) fun b => (hf b).fills (i, b), (hf a).fillers⟩

end Sequence

section Rules

variable {x : Parser α} {y : ι → Parser α}

/-- On fewer states, with fewer tokens to come and before fewer kinds of them. -/
theorem mono {κ : Type} {K' : List Kind → Prop} {m' : κ → Nat}
    (h : Takes n n' K before fill eats x y) (hK : ∀ ks, K' ks → K ks)
    (hf : ∀ k, follow.Has k → before.Has k) (he : eats' → eats) (hn : m ≤ n) (j : κ → ι)
    (hn' : ∀ i, m' i ≤ n' (j i)) : Takes m m' K' follow fill eats' x fun i => y (j i) :=
  ⟨h.reads.mono hK hf he hn j hn', fun i => (h.fills (j i)).mono hf (hn' i), h.fillers⟩

/-- With the longer inputs taken from other data. -/
theorem reindex {κ : Type} (h : Takes n n' K follow fill eats x y) (j : κ → ι) :
    Takes n (fun i => n' (j i)) K follow fill eats x fun i => y (j i) :=
  h.mono (fun _ h => h) (fun _ h => h) id (Nat.le_refl _) j fun _ => Nat.le_refl _

/-- With fewer tokens to come. -/
theorem within (h : Takes n n' K follow fill eats x y) (hn : m ≤ n) (hn' : ∀ i, m' i ≤ n' i) :
    Takes m m' K follow fill eats x y :=
  h.mono (fun _ h => h) (fun _ h => h) id hn id hn'

theorem under {K' : List Kind → Prop} (h : Takes n n' K follow fill eats x y)
    (hK : ∀ ks, K' ks → K ks) : Takes n n' K' follow fill eats x y :=
  h.mono hK (fun _ h => h) id (Nat.le_refl _) id fun _ => Nat.le_refl _

theorem followed (h : Takes n n' K before fill eats x y) (hf : ∀ k, follow.Has k → before.Has k) :
    Takes n n' K follow fill eats x y :=
  h.mono (fun _ h => h) hf id (Nat.le_refl _) id fun _ => Nat.le_refl _

protected theorem pure (a : α) (b : ι → α) :
    Takes n n' K follow [] false (Pure.pure a) fun i => Pure.pure (b i) :=
  ⟨.pure a b, fun i => .pure (b i), fun _ hk => absurd hk List.not_mem_nil⟩

/-- The end of a production: a tree is made, which spans what was consumed. -/
theorem spanned (start : Position) (start' : ι → Position) (f : Span → α) (g : ι → Span → α) :
    Takes n n' K follow [] false (Parser.finish start >>= fun span => Pure.pure (f span))
      fun i => Parser.finish (start' i) >>= fun span => Pure.pure (g i span) :=
  .quiet (Parser.quiet_finish _) (fun _ => Parser.quiet_finish _) fun _ => .pure _ _

protected theorem map [Nonempty α] (h : Takes n n' K follow fill eats x y) (f : α → β)
    (g : ι → α → β) : Takes n n' K follow fill eats (f <$> x) fun i => g i <$> y i := by
  simp only [map_eq_pure_bind]
  exact h.goOn fun _ => .pure _ _

end Rules

/-- What is read in a loop. Each round eats, so there are fewer tokens to come for the rest. -/
theorem fueled {γ δ : Type} {x : Nat → γ → Parser α} {y : Nat → ι → δ → Parser α}
    (hfill : ∀ k ∈ fill, k ∈ Syntax.fillers)
    (hy : ∀ i m, m + 1 ≤ n' i → ∀ c, Fills (m + 1) follow fill (y (m + 1) i c))
    (hx : ∀ m (m' : ι → Nat), (∀ i, m ≤ m' i) → m + 1 ≤ n → (∀ i, m' i + 1 ≤ n' i) →
      (∀ c, Takes m (fun p : ι × δ => m' p.1) K follow fill eats (x m c)
        fun p => y (m' p.1) p.1 p.2) →
      ∀ c, Reads (m + 1) (fun p : ι × δ => m' p.1 + 1) K follow eats (x (m + 1) c)
        fun p => y (m' p.1 + 1) p.1 p.2)
    (hle : ∀ i, m ≤ m' i) (hn : m ≤ n) (hn' : ∀ i, m' i ≤ n' i) (c : γ) :
    Takes m (fun p : ι × δ => m' p.1) K follow fill eats (x m c) fun p => y (m' p.1) p.1 p.2 := by
  induction m generalizing m' c with
  | zero =>
    refine ⟨fun s _ _ hlen => absurd hlen (Nat.not_lt_zero _), fun p => ?_, hfill⟩
    cases hm : m' p.1 with
    | zero => exact fun s _ _ _ _ _ hlen => absurd hlen (Nat.not_lt_zero _)
    | succ k => exact hy p.1 k (hm ▸ hn' p.1) p.2
  | succ m ih =>
    obtain ⟨m', rfl⟩ : ∃ k : ι → Nat, m' = fun i => k i + 1 := by
      refine ⟨fun i => m' i - 1, funext fun i => (Nat.sub_add_cancel ?_).symm⟩
      exact Nat.le_trans (Nat.succ_le_succ (Nat.zero_le m)) (hle i)
    have hle' : ∀ i, m ≤ m' i := fun i => Nat.le_of_succ_le_succ (hle i)
    refine ⟨hx m m' hle' hn hn' (ih hle' (by omega) fun i => ?_) c, fun p => ?_, hfill⟩
    · exact Nat.le_of_succ_le (hn' i)
    · exact hy p.1 (m' p.1) (hn' p.1) p.2

section Choice

/-- Productions chosen by the kind of the current token, where nothing needs to be there. -/
theorem choose {p : Kind → Parser α} {q : ι → Kind → Parser α}
    (h : ∀ k, Reads n n' (fun ks => K ks ∧ first ks = k) follow false (p k) fun i => q i k)
    (hend : ∀ i k, follow.Has k → q i k = q i .endOfInput)
    (hfill : ∀ i, Fills (n' i) follow [] (q i .endOfInput)) :
    Takes n n' K follow [] false (Parser.kind >>= p) fun i => Parser.kind >>= q i := by
  refine ⟨.choose h fun _ _ => hend, fun i => ?_, fun _ hk => absurd hk List.not_mem_nil⟩
  refine Fills.choose_nil fun k hk => ?_
  rw [hend i k hk]
  exact hfill i

/-- A production chosen if the current token is of a kind, and another one, for which nothing needs
to be there, if it is not. -/
theorem test {k : Kind} (hk : k ≠ .endOfInput) (hf : ¬ follow.Has k) {p q : Parser α}
    {p' q' : ι → Parser α} (hp : Reads n n' (fun ks => K ks ∧ first ks = k) follow false p p')
    (hq : Takes n n' (fun ks => K ks ∧ first ks ≠ k) follow [] false q q') :
    Takes n n' K follow [] false (Parser.at? k >>= fun b => if b then p else q) fun i =>
      Parser.at? k >>= fun b => if b then p' i else q' i := by
  exact ⟨.test hk hp hq.reads fun _ _ => hf, fun i => .test hf (hq.fills i), hq.fillers⟩

end Choice

end Takes

/-- The name in a token. -/
def nameOf : Token.Lexeme → String
  | .identifier name => name
  | _ => ""

section Steps

private theorem expectName_eq : Parser.expectName = (do
    let token ← Parser.current
    if token.kind = .identifier then do
      Parser.advance
      pure ⟨nameOf token.lexeme, token.span⟩
    else Parser.unexpected [Kind.identifier.expectation]) := by
  unfold Parser.expectName
  congr 1
  funext token
  obtain ⟨lexeme, start, stop⟩ := token
  cases lexeme <;> rfl

theorem reads_expectName :
    Reads n n' K follow true Parser.expectName fun _ : ι => Parser.expectName := by
  simp only [expectName_eq]
  refine Reads.chooseToken (fun t => ?_) fun h => nomatch h
  by_cases hk : t.kind = .identifier
  · rw [if_pos hk]
    refine Reads.of_eq ?_ fun j => if_pos (j.2.2.trans hk)
    refine (Reads.passes fun ks hks => ?_).before_pure _ _
    rw [hks.2, hk]
    decide
  · rw [if_neg hk]
    refine Reads.of_eq ?_ fun j => if_neg fun h => hk (j.2.2.symm.trans h)
    exact .unexpected _ _

/-- A name is one token. -/
theorem kinds_of_expectName {s s' : State} {a : Ident} {ks : List Kind} (hs : s.Proper)
    (hk : s.kinds = .identifier :: ks) (h : Parser.expectName s = .ok a s') : s'.kinds = ks := by
  have hkind : s.current.kind = .identifier := by
    rw [← State.Proper.first_kinds, hk]
    rfl
  rw [expectName_eq, Parser.current, Step.bind_apply, Step.gets] at h
  dsimp only at h
  rw [if_pos hkind, Step.bind_apply] at h
  by_cases hmore : ks ≠ [] ∨ s.clean
  · obtain ⟨s₁, hadvance, -, hks, -⟩ := advance_ok hs hk hmore
    rw [hadvance] at h
    cases h
    exact hks
  · simp only [not_or, Decidable.not_not, Bool.not_eq_true] at hmore
    obtain ⟨rfl, hclean⟩ := hmore
    obtain ⟨d, hadvance, -⟩ := advance_fault hk hclean
    rw [hadvance] at h
    cases h

theorem fills_expectName : Fills n follow [.identifier] Parser.expectName := by
  rw [expectName_eq]
  refine Fills.chooseToken fun t ht => ?_
  rw [if_pos ht]
  exact (Fills.advance .identifier).seq (fun _ => .pure _) Follow.joins_any

/-- What must be there eats. -/
theorem reads_expect {k : Kind} (hk : k ≠ .endOfInput) :
    Reads n n' K follow true (Parser.expect k) fun _ : ι => Parser.expect k := by
  refine Reads.test hk ?_ (.unexpected (fun _ => [k.expectation]) _) fun h => nomatch h
  exact Reads.passes fun ks hks => hks.2 ▸ hk

theorem fills_expect (k : Kind) : Fills n follow [k] (Parser.expect k) := by
  refine Fills.choose (p := fun κ => if κ == k then Parser.advance else
    Parser.unexpected [k.expectation]) ?_
  simpa using Fills.advance k

theorem takes_expect (k : Kind) (hk : k ∈ fillers) :
    Takes n n' K follow [k] true (Parser.expect k) fun _ : ι => Parser.expect k := by
  refine ⟨reads_expect ?_, fun _ => fills_expect k, by simpa using hk⟩
  rintro rfl
  revert hk
  decide

theorem takes_expectName :
    Takes n n' K follow [.identifier] true Parser.expectName fun _ : ι => Parser.expectName :=
  ⟨reads_expectName, fun _ => fills_expectName, by decide⟩

/-- A semicolon may be there. -/
theorem takes_skipSemicolon (h : ¬ follow.Has (.mark .semicolon)) :
    Takes n n' K follow [] false Parser.skipSemicolon fun _ : ι => Parser.skipSemicolon := by
  refine Takes.test (by decide) h (Reads.idle (Reads.passes fun ks hks => ?_)) (.pure _ _)
  rw [hks.2]
  decide

/-- What stands in parentheses. -/
theorem takes_parenthesized [Nonempty α] {x : Parser α} {y : ι → Parser α}
    (h : Takes n n' (fun _ => True) before fill true x y) (hb : before.Has (.mark .closeParen)) :
    Takes n n' K none (.mark .openParen :: fill ++ [.mark .closeParen]) true
      (Parser.parenthesized x) fun i => Parser.parenthesized (y i) := by
  unfold Parser.parenthesized
  exact (takes_expect _ (by decide)).andThen fun _ =>
    (h.reindex _).upTo (fun _ => (takes_expect _ (by decide)).goOn fun _ => .pure _ _) hb

theorem reads_parenthesized [Nonempty α] {x : Parser α} {y : ι → Parser α}
    (h : Takes n n' (fun _ => True) before fill true x y) (hb : before.Has (.mark .closeParen)) :
    Reads (n + 1) (n' · + 1) K none true (Parser.parenthesized x) fun i =>
      Parser.parenthesized (y i) := by
  unfold Parser.parenthesized
  exact (reads_expect (by decide)).eat fun _ =>
    (h.reindex _).upTo (fun _ => (takes_expect _ (by decide)).goOn fun _ => .pure _ _) hb

/-- Items with commas between them. -/
theorem takes_commaList [Nonempty α] {x : Parser α} {y : ι → Parser α}
    (h : Takes n n' (fun _ => True) before fill true x y)
    (hf : ∀ k, follow.Has k → before.Has k) (hc : ¬ follow.Has (.mark .comma))
    (hle : ∀ i, n ≤ n' i) :
    Takes n n' (fun _ => True) follow fill true (Parser.commaList x n) fun i =>
      Parser.commaList (y i) (n' i) := by
  refine (Takes.fueled (x := fun fuel (_ : Unit) => Parser.commaList x fuel)
    (y := fun fuel i (_ : Unit) => Parser.commaList (y i) fuel) h.fillers
    (fun i m hm _ => ?_) (fun m m' _ hm hm' ih _ => ?_) hle (Nat.le_refl _)
    (fun _ => Nat.le_refl _) ()).reindex fun i => (i, ())
  all_goals unfold Parser.commaList
  · rw [← List.append_nil fill]
    exact ((h.fills i).mono hf hm).seq (fun _ => .test hc (.pure _)) (Follow.joins_nil fun _ h => h)
  · have hitem := ((h.followed hf).reindex Prod.fst).within hm fun p : ι × Unit => hm' p.1
    refine (hitem.goOn fun _ => .test (by decide) hc ?_ (.pure _ _)).reads
    refine Reads.idle (Reads.eat ?_ fun _ => ((ih ()).reindex _).goOn fun _ => .pure _ _)
    exact .passes fun ks hks => by rw [hks.2]; decide

end Steps

end Kotoba.Syntax
