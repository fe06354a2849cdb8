import Kotoba.Syntax.Parser

/-! How productions take in tokens. A production is compared with itself on a longer input: what it
makes of its tokens does not change when more of them follow, unless it came to the end; and where
it came to the end too early, there are tokens that complete it. Only the kinds of tokens matter. -/
namespace Kotoba.Syntax

open Token (Kind)

namespace State

/-- The tokens that are not consumed yet, without the end of input. -/
def left (s : State) : List Token :=
  if s.current.kind = .endOfInput then [] else s.current :: s.ahead

/-- The kinds of the tokens that are not consumed yet. -/
def kinds (s : State) : List Kind := s.left.map Token.kind

/-- Whether the tokens end with the end of input, not with a fault. -/
def clean (s : State) : Bool :=
  match s.ending with
  | .ok _ => true
  | .error _ => false

/-- The end of input stands at the end and nowhere else. -/
structure Proper (s : State) : Prop where
  ahead : ∀ t ∈ s.ahead, t.kind ≠ .endOfInput
  ending : ∀ t, s.ending = .ok t → t.kind = .endOfInput
  ended : s.current.kind = .endOfInput → s.ahead = [] ∧ s.clean

end State

/-- The first of some kinds, the end of input if there is none. -/
def first : List Kind → Kind
  | [] => .endOfInput
  | k :: _ => k

namespace State.Proper

variable {s : State}

theorem first_kinds (s : State) : first s.kinds = s.current.kind := by
  unfold State.kinds State.left
  split
  · next h => rw [h]; rfl
  · rfl

theorem kinds_of_ne (h : s.current.kind ≠ .endOfInput) :
    s.kinds = s.current.kind :: s.ahead.map Token.kind := by
  simp [State.kinds, State.left, h]

theorem not_mem_kinds (h : s.Proper) : .endOfInput ∉ s.kinds := by
  unfold State.kinds State.left
  split
  · simp
  · next hne =>
    rw [List.map_cons, List.mem_cons, List.mem_map]
    rintro (heq | ⟨t, ht, htk⟩)
    · exact hne heq.symm
    · exact h.ahead t ht htk

theorem kinds_eq_nil (s : State) : s.kinds = [] ↔ s.current.kind = .endOfInput := by
  unfold State.kinds State.left
  split <;> simp_all

end State.Proper

/-- A state with the same tokens and then more, of the given kinds. After a fault there is nothing
more. -/
structure Extends (s : State) (more : List Kind) (t : State) : Prop where
  proper : t.Proper
  kinds : t.kinds = s.kinds ++ more
  faulty : s.clean = false → more = [] ∧ t.clean = false

/-- What may follow a production: one of some kinds, or anything. -/
abbrev Follow : Type := Option (List Kind)

namespace Follow

def Has : Follow → Kind → Prop
  | none, _ => True
  | some kinds, k => k ∈ kinds

instance (follow : Follow) (k : Kind) : Decidable (follow.Has k) :=
  match follow with
  | none => .isTrue trivial
  | some kinds => inferInstanceAs (Decidable (k ∈ kinds))

instance (kinds : List Kind) (P : Kind → Prop) [DecidablePred P] :
    Decidable (∀ k, Has (some kinds) k → P k) :=
  inferInstanceAs (Decidable (∀ k ∈ kinds, P k))

/-- Whether a production that may be followed by `before` can stand before tokens of the kinds
`fill` and what may follow these. -/
def Joins (before : Follow) (fill : List Kind) (after : Follow) : Prop :=
  ∀ rest, after.Has (first rest) → before.Has (first (fill ++ rest))

theorem joins_nil {before after : Follow} (h : ∀ k, after.Has k → before.Has k) :
    before.Joins [] after := fun _ hr => h _ hr

theorem joins_cons {before after : Follow} {k : Kind} {fill : List Kind} (h : before.Has k) :
    before.Joins (k :: fill) after := fun _ _ => h

theorem joins_any {fill : List Kind} {after : Follow} : Joins none fill after := fun _ _ => trivial

end Follow

/-- The kinds of tokens with which an input can be completed. -/
def fillers : List Kind :=
  [.integer, .identifier, .mark .openParen, .mark .closeParen, .mark .openBracket,
    .mark .closeBracket, .mark .openBrace, .mark .closeBrace, .mark .comma, .mark .semicolon,
    .mark .assign, .mark .arrow]

variable {α β ι κ : Type}

/-- A production that, with fewer than `n` tokens to come, takes in tokens of the kinds `fill` if
they come first and may be followed by what comes next. -/
def Fills (n : Nat) (follow : Follow) (fill : List Kind) (y : Parser α) : Prop :=
  ∀ s rest, s.Proper → s.clean → s.kinds = fill ++ rest → follow.Has (first rest) →
    s.kinds.length < n → ∃ b t, y s = .ok b t ∧ t.Proper ∧ t.clean ∧ t.kinds = rest

/-- How a production succeeds on a state, compared with others on longer inputs. -/
structure Succeeds (n : ι → Nat) (follow : Follow) (eats : Bool) (y : ι → Parser α) (s s' : State) :
    Prop where
  proper : s'.Proper
  clean : s'.clean = s.clean
  suffix : ∃ taken, s.left = taken ++ s'.left ∧ eats.toNat ≤ taken.length
  agrees : ∀ more t i, Extends s more t → t.kinds.length < n i →
    (s'.kinds = [] → follow.Has (first more) ∧ t.clean) →
    ∃ b t', y i t = .ok b t' ∧ Extends s' more t' ∧ t'.clean = t.clean

/-- How a production fails on a state, compared with others on longer inputs. -/
structure Fails (n : ι → Nat) (follow : Follow) (y : ι → Parser α) (s : State) (d : Diagnostic) :
    Prop where
  /-- A text that ended too early can be completed. -/
  completes : d.isIncomplete → s.clean ∧ (s.kinds ≠ [] →
    ∃ more, (∀ k ∈ more, k ∈ fillers) ∧ ∀ rest t i, Extends s (more ++ rest) t → t.clean →
      follow.Has (first rest) → t.kinds.length < n i →
      ∃ b t', y i t = .ok b t' ∧ t'.Proper ∧ t'.clean ∧ t'.kinds = rest)
  /-- Any other failure stays. -/
  persists : d.isIncomplete = false → s.kinds ≠ [] ∧ ∀ more t i, Extends s more t →
    t.kinds.length < n i → ∃ d' t', y i t = .error d' t'

/-- How a production takes in tokens on states whose kinds satisfy `K`, with fewer than `n` tokens
to come, compared with others with fewer than `n'` tokens to come. If it `eats`, it takes at least
one token. -/
def Reads (n : Nat) (n' : ι → Nat) (K : List Kind → Prop) (follow : Follow) (eats : Bool) (x : Parser α)
    (y : ι → Parser α) : Prop :=
  ∀ s, s.Proper → K s.kinds → s.kinds.length < n →
    match x s with
    | .ok _ s' => Succeeds n' follow eats y s s'
    | .error d _ => Fails n' follow y s d
    | .exhausted => False

theorem Extends.length {s t : State} {more : List Kind} (h : Extends s more t) :
    t.kinds.length = s.kinds.length + more.length := by
  rw [h.kinds, List.length_append]

namespace Succeeds

variable {n : ι → Nat} {follow : Follow} {eats : Bool} {y : ι → Parser α} {s s' : State}

theorem kinds_suffix (h : Succeeds n follow eats y s s') :
    ∃ taken, s.kinds = taken ++ s'.kinds ∧ eats.toNat ≤ taken.length := by
  obtain ⟨taken, htaken, hlen⟩ := h.suffix
  exact ⟨taken.map Token.kind, by simp [State.kinds, htaken], by simpa using hlen⟩

theorem length_le (h : Succeeds n follow eats y s s') :
    s'.kinds.length + eats.toNat ≤ s.kinds.length := by
  obtain ⟨taken, htaken, hlen⟩ := h.kinds_suffix
  rw [htaken, List.length_append]
  omega

/-- From nothing nothing can be taken. -/
theorem nil_of_nil (h : Succeeds n follow eats y s s') (hs : s.kinds = []) :
    s'.kinds = [] ∧ eats = false := by
  have hlen := h.length_le
  rw [hs, List.length_nil] at hlen
  refine ⟨List.eq_nil_of_length_eq_zero (by omega), ?_⟩
  cases eats with
  | false => rfl
  | true => simp at hlen

end Succeeds

namespace Fills

theorem bind {n m : Nat} {follow before : Follow} {fill more : List Kind} {y : Parser α}
    {g : α → Parser β} (hy : Fills n before fill y) (hg : ∀ b, Fills m follow more (g b))
    (hj : before.Joins more follow) (hn : n ≤ m + fill.length) :
    Fills n follow (fill ++ more) (y >>= g) := by
  intro s rest hs hclean hkinds hrest hlen
  rw [List.append_assoc] at hkinds
  obtain ⟨b, t, hyt, ht, htc, htk⟩ := hy s (more ++ rest) hs hclean hkinds (hj rest hrest) hlen
  have hlen' : t.kinds.length < m := by
    rw [hkinds, List.length_append] at hlen
    rw [htk]
    omega
  obtain ⟨b', t', hgt, h⟩ := hg b t rest ht htc htk hrest hlen'
  exact ⟨b', t', by rw [Step.bind_apply, hyt]; exact hgt, h⟩

theorem seq {n : Nat} {follow before : Follow} {fill more : List Kind} {y : Parser α}
    {g : α → Parser β} (hy : Fills n before fill y) (hg : ∀ b, Fills n follow more (g b))
    (hj : before.Joins more follow) : Fills n follow (fill ++ more) (y >>= g) :=
  bind hy hg hj (Nat.le_add_right _ _)

theorem pure {n : Nat} {follow : Follow} (a : α) : Fills n follow [] (Pure.pure a) :=
  fun s _ hs hclean hkinds _ _ => ⟨a, s, rfl, hs, hclean, hkinds⟩

end Fills

namespace Reads

variable {n m : Nat} {n' m' : ι → Nat} {K : List Kind → Prop} {follow before : Follow}
  {eats eats' : Bool}

/-- One production after another. -/
theorem bind_of {K' : List Kind → Prop} {x : Parser α} {y : ι → Parser α} {f : α → Parser β}
    {g : ι → α → Parser β} {fill : List Kind} (hx : Reads n n' K before eats x y)
    (hf : ∀ a, Reads m (fun p : ι × α => m' p.1) K' follow eats' (f a) fun p => g p.1 p.2)
    (hK' : ∀ s a s', s.Proper → K s.kinds → x s = .ok a s' → K' s'.kinds)
    (hg : ∀ i b, Fills (m' i) follow fill (g i b)) (hfill : ∀ k ∈ fill, k ∈ fillers)
    (hj : before.Joins fill follow) (he : eats' = false → ∀ k, follow.Has k → before.Has k)
    (hn : n ≤ m + eats.toNat) (hn' : ∀ i, n' i ≤ m' i + eats.toNat) :
    Reads n n' K follow (eats || eats') (x >>= f) fun i => y i >>= g i := by
  intro s hs hK hlen
  have hxs := hx s hs hK hlen
  rw [Step.bind_apply]
  cases hx₁ : x s with
  | exhausted => rw [hx₁] at hxs; exact hxs
  | error d s₁ =>
    rw [hx₁] at hxs
    refine ⟨fun hd => ?_, fun hd => ?_⟩
    · obtain ⟨hclean, hcomplete⟩ := hxs.completes hd
      refine ⟨hclean, fun hne => ?_⟩
      obtain ⟨more, hmore, hrun⟩ := hcomplete hne
      refine ⟨more ++ fill, by simpa [or_imp, forall_and] using ⟨hmore, hfill⟩, ?_⟩
      intro rest t i ht htc hrest htl
      rw [List.append_assoc] at ht
      obtain ⟨b, t₁, hy₁, hp₁, hc₁, hk₁⟩ := hrun (fill ++ rest) t i ht htc (hj rest hrest) htl
      have hpos : 0 < s.kinds.length := List.length_pos_iff.mpr hne
      have hle : eats.toNat ≤ 1 := Bool.toNat_le eats
      have hlt : t₁.kinds.length < m' i := by
        have hlen' := ht.length
        have hbound := hn' i
        rw [List.length_append] at hlen'
        rw [hk₁]
        omega
      obtain ⟨b', t', hg₁, h⟩ := hg i b t₁ rest hp₁ hc₁ hk₁ hrest hlt
      exact ⟨b', t', by rw [Step.bind_apply, hy₁]; exact hg₁, h⟩
    · obtain ⟨hne, hrun⟩ := hxs.persists hd
      refine ⟨hne, fun more t i ht htl => ?_⟩
      obtain ⟨d', t', hy₁⟩ := hrun more t i ht htl
      exact ⟨d', t', by rw [Step.bind_apply, hy₁]⟩
  | ok a s₁ =>
    rw [hx₁] at hxs
    have hlen₁ := hxs.length_le
    have hfs := hf a s₁ hxs.proper (hK' s a s₁ hs hK hx₁) (by omega)
    dsimp only
    -- where the second production starts on the longer input
    have hstart : ∀ more t i, Extends s more t → t.kinds.length < n' i →
        (s₁.kinds = [] → before.Has (first more) ∧ t.clean) →
        ∃ b t₁, y i t = .ok b t₁ ∧ Extends s₁ more t₁ ∧ t₁.clean = t.clean ∧
          t₁.kinds.length < m' i := by
      intro more t i ht htl hb
      obtain ⟨b, t₁, hy₁, hext, hc⟩ := hxs.agrees more t i ht htl hb
      have h₁ := ht.length
      have h₂ := hext.length
      have h₃ := hn' i
      exact ⟨b, t₁, hy₁, hext, hc, by omega⟩
    cases hf₁ : f a s₁ with
    | exhausted => rw [hf₁] at hfs; exact hfs
    | error d s₂ =>
      rw [hf₁] at hfs
      refine ⟨fun hd => ?_, fun hd => ?_⟩
      · obtain ⟨hclean, hcomplete⟩ := hfs.completes hd
        refine ⟨hxs.clean ▸ hclean, fun _ => ?_⟩
        by_cases hne : s₁.kinds = []
        · refine ⟨fill, hfill, fun rest t i ht htc hrest htl => ?_⟩
          obtain ⟨b, t₁, hy₁, hext, hc, htl₁⟩ :=
            hstart (fill ++ rest) t i ht htl fun _ => ⟨hj rest hrest, htc⟩
          have hk₁ : t₁.kinds = fill ++ rest := by rw [hext.kinds, hne, List.nil_append]
          obtain ⟨b', t', hg₁, h⟩ := hg i b t₁ rest hext.proper (hc.trans htc) hk₁ hrest htl₁
          exact ⟨b', t', by rw [Step.bind_apply, hy₁]; exact hg₁, h⟩
        · obtain ⟨more, hmore, hrun⟩ := hcomplete hne
          refine ⟨more, hmore, fun rest t i ht htc hrest htl => ?_⟩
          obtain ⟨b, t₁, hy₁, hext, hc, htl₁⟩ :=
            hstart (more ++ rest) t i ht htl fun h => absurd h hne
          obtain ⟨b', t', hg₁, h⟩ := hrun rest t₁ (i, b) hext (hc.trans htc) hrest htl₁
          exact ⟨b', t', by rw [Step.bind_apply, hy₁]; exact hg₁, h⟩
      · obtain ⟨hne, hrun⟩ := hfs.persists hd
        refine ⟨fun h => ?_, fun more t i ht htl => ?_⟩
        · exact hne (hxs.nil_of_nil h).1
        · obtain ⟨b, t₁, hy₁, hext, hc, htl₁⟩ := hstart more t i ht htl fun h => absurd h hne
          obtain ⟨d', t', hg₁⟩ := hrun more t₁ (i, b) hext htl₁
          exact ⟨d', t', by rw [Step.bind_apply, hy₁]; exact hg₁⟩
    | ok c s₂ =>
      rw [hf₁] at hfs
      refine ⟨hfs.proper, hfs.clean.trans hxs.clean, ?_, fun more t i ht htl hb => ?_⟩
      · obtain ⟨taken₁, h₁, hl₁⟩ := hxs.suffix
        obtain ⟨taken₂, h₂, hl₂⟩ := hfs.suffix
        refine ⟨taken₁ ++ taken₂, by rw [h₁, h₂, List.append_assoc], ?_⟩
        rw [List.length_append]
        cases eats <;> cases eats' <;> simp at hl₁ hl₂ ⊢ <;> omega
      · have hb₁ : s₁.kinds = [] → before.Has (first more) ∧ t.clean := by
          intro h
          obtain ⟨h₂, hzero⟩ := hfs.nil_of_nil h
          exact ⟨he hzero _ (hb h₂).1, (hb h₂).2⟩
        obtain ⟨b, t₁, hy₁, hext, hc, htl₁⟩ := hstart more t i ht htl hb₁
        obtain ⟨b', t', hg₁, hext', hc'⟩ :=
          hfs.agrees more t₁ (i, b) hext htl₁ fun h => ⟨(hb h).1, hc.trans (hb h).2⟩
        exact ⟨b', t', by rw [Step.bind_apply, hy₁]; exact hg₁, hext', hc'.trans hc⟩

theorem bind {x : Parser α} {y : ι → Parser α} {f : α → Parser β} {g : ι → α → Parser β}
    {fill : List Kind} (hx : Reads n n' K before eats x y)
    (hf : ∀ a, Reads m (fun p : ι × α => m' p.1) (fun _ => True) follow eats' (f a)
      fun p => g p.1 p.2)
    (hg : ∀ i b, Fills (m' i) follow fill (g i b)) (hfill : ∀ k ∈ fill, k ∈ fillers)
    (hj : before.Joins fill follow) (he : eats' = false → ∀ k, follow.Has k → before.Has k)
    (hn : n ≤ m + eats.toNat) (hn' : ∀ i, n' i ≤ m' i + eats.toNat) :
    Reads n n' K follow (eats || eats') (x >>= f) fun i => y i >>= g i :=
  bind_of hx hf (fun _ _ _ _ _ _ => trivial) hg hfill hj he hn hn'

/-- One production after another, with as many tokens to come. -/
theorem seq {x : Parser α} {y : ι → Parser α} {f : α → Parser β} {g : ι → α → Parser β}
    {fill : List Kind} (hx : Reads n n' K before eats x y)
    (hf : ∀ a, Reads n (fun p : ι × α => n' p.1) (fun _ => True) follow eats' (f a)
      fun p => g p.1 p.2)
    (hg : ∀ i b, Fills (n' i) follow fill (g i b)) (hfill : ∀ k ∈ fill, k ∈ fillers)
    (hj : before.Joins fill follow) (he : eats' = false → ∀ k, follow.Has k → before.Has k) :
    Reads n n' K follow (eats || eats') (x >>= f) fun i => y i >>= g i :=
  bind hx hf hg hfill hj he (Nat.le_add_right _ _) fun _ => Nat.le_add_right _ _

theorem mono {K' : List Kind → Prop} {x : Parser α} {y : ι → Parser α} {m' : κ → Nat}
    (h : Reads n n' K before eats x y) (hK : ∀ ks, K' ks → K ks)
    (hf : ∀ k, follow.Has k → before.Has k) (he : eats' → eats) (hn : m ≤ n) (j : κ → ι)
    (hn' : ∀ i, m' i ≤ n' (j i)) : Reads m m' K' follow eats' x fun i => y (j i) := by
  intro s hs hKs hlen
  have hxs := h s hs (hK _ hKs) (by omega)
  cases hx : x s with
  | exhausted => rw [hx] at hxs; exact hxs
  | error d s' =>
    rw [hx] at hxs
    refine ⟨fun hd => ?_, fun hd => ?_⟩
    · obtain ⟨hclean, hcomplete⟩ := hxs.completes hd
      refine ⟨hclean, fun hne => ?_⟩
      obtain ⟨more, hmore, hrun⟩ := hcomplete hne
      exact ⟨more, hmore, fun rest t i ht htc hr htl =>
        hrun rest t (j i) ht htc (hf _ hr) (Nat.lt_of_lt_of_le htl (hn' i))⟩
    · obtain ⟨hne, hrun⟩ := hxs.persists hd
      exact ⟨hne, fun more t i ht htl => hrun more t (j i) ht (Nat.lt_of_lt_of_le htl (hn' i))⟩
  | ok a s' =>
    rw [hx] at hxs
    obtain ⟨taken, htaken, hlen'⟩ := hxs.suffix
    refine ⟨hxs.proper, hxs.clean, ⟨taken, htaken, ?_⟩, fun more t i ht htl hb =>
      hxs.agrees more t (j i) ht (Nat.lt_of_lt_of_le htl (hn' i)) fun h' =>
        ⟨hf _ (hb h').1, (hb h').2⟩⟩
    cases eats <;> cases eats' <;> simp_all

/-- On fewer states. -/
theorem under {K' : List Kind → Prop} {x : Parser α} {y : ι → Parser α}
    (h : Reads n n' K follow eats x y) (hK : ∀ ks, K' ks → K ks) : Reads n n' K' follow eats x y :=
  h.mono hK (fun _ h => h) id (Nat.le_refl _) id fun _ => Nat.le_refl _

/-- Before fewer kinds of tokens. -/
theorem followed {x : Parser α} {y : ι → Parser α} (h : Reads n n' K before eats x y)
    (hf : ∀ k, follow.Has k → before.Has k) : Reads n n' K follow eats x y :=
  h.mono (fun _ h => h) hf id (Nat.le_refl _) id fun _ => Nat.le_refl _

/-- With fewer tokens to come. -/
theorem within {x : Parser α} {y : ι → Parser α} (h : Reads n n' K follow eats x y) (hn : m ≤ n)
    (hn' : ∀ i, m' i ≤ n' i) : Reads m m' K follow eats x y :=
  h.mono (fun _ h => h) (fun _ h => h) id hn id hn'

/-- What eats may be said not to. -/
theorem idle {x : Parser α} {y : ι → Parser α} (h : Reads n n' K follow true x y) :
    Reads n n' K follow false x y :=
  h.mono (fun _ h => h) (fun _ h => h) (fun _ => rfl) (Nat.le_refl _) id fun _ => Nat.le_refl _

theorem of_eq {x : Parser α} {y y' : ι → Parser α} (h : Reads n n' K follow eats x y)
    (hy : ∀ i, y' i = y i) : Reads n n' K follow eats x y' := by
  rw [funext hy]
  exact h

protected theorem pure (a : α) (b : ι → α) :
    Reads n n' K follow false (Pure.pure a) fun i => Pure.pure (b i) :=
  fun _ hs _ _ => ⟨hs, rfl, ⟨[], rfl, Nat.zero_le _⟩, fun _ t i ht _ _ =>
    ⟨b i, t, rfl, ht, rfl⟩⟩

/-- A production that cannot do with nothing is looked at on something only. -/
theorem of_ne_nil {x : Parser α} {y : ι → Parser α} {y' : κ → Parser α} {m' : κ → Nat}
    (h : Reads n n' (fun ks => K ks ∧ ks ≠ []) follow eats x y)
    (hnil : Reads n m' (· = []) before true x y') : Reads n n' K follow eats x y := by
  intro s hs hK hlen
  by_cases hs' : s.kinds = []
  · have hxs := hnil s hs hs' hlen
    cases hx : x s with
    | exhausted => rw [hx] at hxs; exact hxs
    | ok a s' =>
      rw [hx] at hxs
      exact nomatch (hxs.nil_of_nil hs').2
    | error d s' =>
      rw [hx] at hxs
      exact ⟨fun hd => ⟨(hxs.completes hd).1, fun hne => absurd hs' hne⟩,
        fun hd => absurd hs' (hxs.persists hd).1⟩
  · exact h s hs ⟨hK, hs'⟩ hlen

/-- A production whose result is made up from what it yields. -/
theorem before_pure {x : Parser α} {y : ι → Parser α} (h : Reads n n' K follow eats x y)
    (f : α → β) (g : ι → α → β) :
    Reads n n' K follow eats (x >>= fun a => Pure.pure (f a)) fun i =>
      y i >>= fun b => Pure.pure (g i b) := by
  rw [← Bool.or_false eats]
  exact h.seq (fun a => .pure (f a) fun p : ι × α => g p.1 p.2) (fun i b => .pure (g i b))
    (fun k hk => absurd hk List.not_mem_nil) (Follow.joins_nil fun _ h => h) fun _ _ h => h

protected theorem map {x : Parser α} {y : ι → Parser α} (h : Reads n n' K follow eats x y)
    (f : α → β) (g : ι → α → β) :
    Reads n n' K follow eats (f <$> x) fun i => g i <$> y i := by
  simp only [map_eq_pure_bind]
  exact h.before_pure f g

end Reads

namespace Parser

/-- Steps that always succeed and consume nothing. -/
def Quiet (x : Parser α) : Prop :=
  ∀ s, ∃ a s', x s = .ok a s' ∧ s'.current = s.current ∧ s'.ahead = s.ahead ∧
    s'.ending = s.ending ∧ s'.lastStop = s.lastStop

theorem quiet_gets (f : State → α) : Quiet (Step.gets f) :=
  fun s => ⟨f s, s, rfl, rfl, rfl, rfl, rfl⟩

theorem quiet_here : Quiet here := quiet_gets _

theorem quiet_finish (start : Position) : Quiet (finish start) := quiet_gets _

theorem quiet_enter (production : String) : Quiet (enter production) :=
  fun _ => ⟨(), _, rfl, rfl, rfl, rfl, rfl⟩

end Parser

/-- States that differ in nothing but what was noted on the way. -/
structure Alike (s t : State) : Prop where
  current : t.current = s.current
  ahead : t.ahead = s.ahead
  ending : t.ending = s.ending
  lastStop : t.lastStop = s.lastStop

namespace Alike

variable {s t u : State} {more : List Kind}

theorem refl (s : State) : Alike s s := ⟨rfl, rfl, rfl, rfl⟩

theorem trans (h : Alike s t) (h' : Alike t u) : Alike s u :=
  ⟨h'.current.trans h.current, h'.ahead.trans h.ahead, h'.ending.trans h.ending,
    h'.lastStop.trans h.lastStop⟩

theorem left (h : Alike s t) : t.left = s.left := by
  simp only [State.left, h.current, h.ahead]

theorem kinds (h : Alike s t) : t.kinds = s.kinds := by
  rw [State.kinds, State.kinds, h.left]

theorem clean (h : Alike s t) : t.clean = s.clean := by
  simp only [State.clean, h.ending]

theorem proper (h : Alike s t) (hs : s.Proper) : t.Proper where
  ahead := h.ahead ▸ hs.ahead
  ending := h.ending ▸ hs.ending
  ended hc := by
    rw [h.ahead, h.clean]
    exact hs.ended (h.current ▸ hc)

theorem extends_left (h : Alike s t) (he : Extends s more u) : Extends t more u :=
  ⟨he.proper, h.kinds ▸ he.kinds, fun hc => he.faulty (h.clean ▸ hc)⟩

theorem extends_right (h : Alike t u) (he : Extends s more t) : Extends s more u :=
  ⟨h.proper he.proper, h.kinds.trans he.kinds,
    fun hc => ⟨(he.faulty hc).1, h.clean.trans (he.faulty hc).2⟩⟩

end Alike

theorem Parser.Quiet.alike {x : Parser α} (h : Quiet x) (s : State) :
    ∃ a s', x s = .ok a s' ∧ Alike s s' := by
  obtain ⟨a, s', hx, hc, ha, he, hl⟩ := h s
  exact ⟨a, s', hx, hc, ha, he, hl⟩

theorem Fills.quiet {n : Nat} {follow : Follow} {fill : List Kind} {y : Parser α}
    {g : α → Parser β} (hy : y.Quiet) (hg : ∀ b, Fills n follow fill (g b)) :
    Fills n follow fill (y >>= g) := by
  intro s rest hs hclean hkinds hrest hlen
  obtain ⟨b, t, hyt, hst⟩ := hy.alike s
  rw [Step.bind_apply, hyt]
  exact hg b t rest (hst.proper hs) (hst.clean.trans hclean) (hst.kinds.trans hkinds) hrest
    (hst.kinds ▸ hlen)

namespace Reads

variable {n : Nat} {n' : ι → Nat} {K : List Kind → Prop} {follow : Follow} {eats : Bool}

/-- A production after a step that consumes nothing. -/
theorem quiet {x : Parser α} {y : ι → Parser α} {f : α → Parser β} {g : ι → α → Parser β}
    (hx : x.Quiet) (hy : ∀ i, (y i).Quiet)
    (hf : ∀ a, Reads n (fun p : ι × α => n' p.1) K follow eats (f a) fun p => g p.1 p.2) :
    Reads n n' K follow eats (x >>= f) fun i => y i >>= g i := by
  intro s hs hK hlen
  obtain ⟨a, s₁, hx₁, hss₁⟩ := hx.alike s
  have hfs := hf a s₁ (hss₁.proper hs) (hss₁.kinds ▸ hK) (hss₁.kinds ▸ hlen)
  rw [Step.bind_apply, hx₁]
  dsimp only
  cases hf₁ : f a s₁ with
  | exhausted => rw [hf₁] at hfs; exact hfs
  | error d s₂ =>
    rw [hf₁] at hfs
    refine ⟨fun hd => ?_, fun hd => ?_⟩
    · obtain ⟨hclean, hcomplete⟩ := hfs.completes hd
      refine ⟨hss₁.clean ▸ hclean, fun hne => ?_⟩
      obtain ⟨more, hmore, hrun⟩ := hcomplete (hss₁.kinds ▸ hne)
      refine ⟨more, hmore, fun rest t i ht htc hr htl => ?_⟩
      obtain ⟨b, t₁, hy₁, htt₁⟩ := (hy i).alike t
      rw [Step.bind_apply, hy₁]
      exact hrun rest t₁ (i, b) (htt₁.extends_right (hss₁.extends_left ht))
        (htt₁.clean.trans htc) hr (htt₁.kinds ▸ htl)
    · obtain ⟨hne, hrun⟩ := hfs.persists hd
      refine ⟨hss₁.kinds ▸ hne, fun more t i ht htl => ?_⟩
      obtain ⟨b, t₁, hy₁, htt₁⟩ := (hy i).alike t
      rw [Step.bind_apply, hy₁]
      exact hrun more t₁ (i, b) (htt₁.extends_right (hss₁.extends_left ht)) (htt₁.kinds ▸ htl)
  | ok c s₂ =>
    rw [hf₁] at hfs
    refine ⟨hfs.proper, hfs.clean.trans hss₁.clean, hss₁.left ▸ hfs.suffix,
      fun more t i ht htl hb => ?_⟩
    obtain ⟨b, t₁, hy₁, htt₁⟩ := (hy i).alike t
    rw [Step.bind_apply, hy₁, ← htt₁.clean]
    exact hfs.agrees more t₁ (i, b) (htt₁.extends_right (hss₁.extends_left ht))
      (htt₁.kinds ▸ htl) fun h => ⟨(hb h).1, htt₁.clean.trans (hb h).2⟩

theorem unexpected (expected : ι → List Bytes) (wanted : List Bytes) :
    Reads n n' K follow eats (Parser.unexpected (α := α) wanted) fun i =>
      Parser.unexpected (expected i) := by
  intro s hs _ _
  have hkind : (Parser.unexpectedAt s.current wanted).isIncomplete ↔ s.kinds = [] := by
    rw [State.Proper.kinds_eq_nil]
    simp only [Parser.unexpectedAt, Diagnostic.isIncomplete]
    split <;> simp_all
  refine ⟨fun hd => ?_, fun hd => ?_⟩
  · have hnil := hkind.mp hd
    exact ⟨(hs.ended ((State.Proper.kinds_eq_nil s).mp hnil)).2, fun hne => absurd hnil hne⟩
  · refine ⟨fun hnil => ?_, fun more t i _ _ => ⟨_, t, rfl⟩⟩
    rw [hkind.mpr hnil] at hd
    cases hd

/-- Productions chosen by the current token. Where the input ends, whatever may follow chooses like
the end of input. -/
theorem chooseToken {p : Token → Parser α} {q : ι → Token → Parser α}
    (h : ∀ t, Reads n (fun j : ι × { t' : Token // t'.kind = t.kind } => n' j.1)
      (fun ks => K ks ∧ first ks = t.kind) follow eats (p t) fun j => q j.1 j.2)
    (hend : eats = false → K [] → ∀ i t e, follow.Has t.kind → e.kind = .endOfInput →
      q i t = q i e) :
    Reads n n' K follow eats (Parser.current >>= p) fun i => Parser.current >>= q i := by
  intro s hs hK hlen
  have hxs := h s.current s hs ⟨hK, State.Proper.first_kinds s⟩ hlen
  rw [show (Parser.current >>= p) s = p s.current s from rfl]
  -- on a longer input the choice is the same
  have hsame : ∀ more t i, Extends s more t →
      (s.kinds = [] → follow.Has (first more) ∧ eats = false) →
      ∃ t' : { t' : Token // t'.kind = s.current.kind }, (Parser.current >>= q i) t = q i t' t := by
    intro more t i ht hm
    have hfirst := State.Proper.first_kinds t
    rw [ht.kinds] at hfirst
    by_cases hnil : s.kinds = []
    · have hkind := (State.Proper.kinds_eq_nil s).mp hnil
      rw [hnil, List.nil_append] at hfirst
      exact ⟨⟨s.current, rfl⟩, congrFun (hend (hm hnil).2 (hnil ▸ hK) i t.current s.current
        (hfirst ▸ (hm hnil).1) hkind) t⟩
    · refine ⟨⟨t.current, ?_⟩, rfl⟩
      rw [← hfirst, ← State.Proper.first_kinds s]
      cases hk : s.kinds with
      | nil => exact absurd hk hnil
      | cons k ks => rfl
  cases hx : p s.current s with
  | exhausted => rw [hx] at hxs; exact hxs
  | error d s' =>
    rw [hx] at hxs
    refine ⟨fun hd => ?_, fun hd => ?_⟩
    · obtain ⟨hclean, hcomplete⟩ := hxs.completes hd
      refine ⟨hclean, fun hne => ?_⟩
      obtain ⟨more, hmore, hrun⟩ := hcomplete hne
      refine ⟨more, hmore, fun rest t i ht htc hr htl => ?_⟩
      obtain ⟨t', hq⟩ := hsame _ t i ht fun hnil => absurd hnil hne
      rw [hq]
      exact hrun rest t (i, t') ht htc hr htl
    · obtain ⟨hne, hrun⟩ := hxs.persists hd
      refine ⟨hne, fun more t i ht htl => ?_⟩
      obtain ⟨t', hq⟩ := hsame _ t i ht fun hnil => absurd hnil hne
      rw [hq]
      exact hrun more t (i, t') ht htl
  | ok a s' =>
    rw [hx] at hxs
    refine ⟨hxs.proper, hxs.clean, hxs.suffix, fun more t i ht htl hb => ?_⟩
    obtain ⟨t', hq⟩ := hsame _ t i ht fun hnil =>
      ⟨(hb (hxs.nil_of_nil hnil).1).1, (hxs.nil_of_nil hnil).2⟩
    rw [hq]
    exact hxs.agrees more t (i, t') ht htl hb

/-- Productions chosen by the kind of the current token. -/
theorem choose {p : Kind → Parser α} {q : ι → Kind → Parser α}
    (h : ∀ k, Reads n n' (fun ks => K ks ∧ first ks = k) follow eats (p k) fun i => q i k)
    (hend : eats = false → K [] → ∀ i k, follow.Has k → q i k = q i .endOfInput) :
    Reads n n' K follow eats (Parser.kind >>= p) fun i => Parser.kind >>= q i := by
  refine chooseToken (p := fun t => p t.kind) (q := fun i t => q i t.kind) (fun t => ?_)
    fun h hK i t e ht he => by rw [hend h hK i _ ht, he]
  intro s hs hK hlen
  have hxs := h t.kind s hs hK hlen
  have hq : (fun j : ι × { t' : Token // t'.kind = t.kind } => q j.1 j.2.1.kind) =
      fun j => q j.1 t.kind := by
    funext j
    rw [j.2.2]
  rw [hq]
  exact (h t.kind).mono (fun _ h => h) (fun _ h => h) (fun h => h) (Nat.le_refl _)
    (fun j : ι × { t' : Token // t'.kind = t.kind } => j.1) (fun _ => Nat.le_refl _) s hs hK hlen

/-- A production chosen if the current token is of a kind, and another one if it is not. -/
theorem test {k : Kind} (hk : k ≠ .endOfInput) {p q : Parser α} {p' q' : ι → Parser α}
    (hp : Reads n n' (fun ks => K ks ∧ first ks = k) follow eats p p')
    (hq : Reads n n' (fun ks => K ks ∧ first ks ≠ k) follow eats q q')
    (hend : eats = false → K [] → ¬ follow.Has k) :
    Reads n n' K follow eats (Parser.at? k >>= fun b => if b then p else q) fun i =>
      Parser.at? k >>= fun b => if b then p' i else q' i := by
  refine choose (p := fun κ => if κ == k then p else q) (q := fun i κ => if κ == k then p' i else q' i)
    (fun κ => ?_) fun he hK i κ hκ => ?_
  · by_cases h : κ = k
    · subst h
      simpa using hp
    · have hb : (κ == k) = false := by simpa using h
      simp only [hb, Bool.false_eq_true, if_false]
      exact hq.under fun ks hks => ⟨hks.1, hks.2 ▸ h⟩
  · have hne : κ ≠ k := fun h => hend he hK (h ▸ hκ)
    simp [hne, hk.symm]

end Reads

namespace Fills

variable {n : Nat} {follow : Follow} {k : Kind} {fill : List Kind}

theorem chooseToken {p : Token → Parser α} (h : ∀ t, t.kind = k → Fills n follow (k :: fill) (p t)) :
    Fills n follow (k :: fill) (Parser.current >>= p) := by
  intro s rest hs hclean hkinds hrest hlen
  have hfirst := State.Proper.first_kinds s
  rw [hkinds] at hfirst
  exact h s.current hfirst.symm s rest hs hclean hkinds hrest hlen

theorem choose {p : Kind → Parser α} (h : Fills n follow (k :: fill) (p k)) :
    Fills n follow (k :: fill) (Parser.kind >>= p) :=
  chooseToken (p := fun t => p t.kind) fun _ ht => ht ▸ h

theorem chooseToken_nil {p : Token → Parser α} (h : ∀ t, follow.Has t.kind → Fills n follow [] (p t)) :
    Fills n follow [] (Parser.current >>= p) := by
  intro s rest hs hclean hkinds hrest hlen
  have hfirst := State.Proper.first_kinds s
  rw [hkinds, List.nil_append] at hfirst
  exact h s.current (hfirst ▸ hrest) s rest hs hclean hkinds hrest hlen

theorem choose_nil {p : Kind → Parser α} (h : ∀ k, follow.Has k → Fills n follow [] (p k)) :
    Fills n follow [] (Parser.kind >>= p) :=
  chooseToken_nil (p := fun t => p t.kind) fun t ht => h t.kind ht

theorem mono {m : Nat} {before : Follow} {y : Parser α} (h : Fills n before fill y)
    (hf : ∀ k, follow.Has k → before.Has k) (hm : m ≤ n) : Fills m follow fill y :=
  fun s rest hs hc hk hr hl => h s rest hs hc hk (hf _ hr) (by omega)

protected theorem map {y : Parser α} (h : Fills n follow fill y) (f : α → β) :
    Fills n follow fill (f <$> y) := by
  intro s rest hs hclean hkinds hrest hlen
  obtain ⟨b, t, hy, ht⟩ := h s rest hs hclean hkinds hrest hlen
  refine ⟨f b, t, ?_, ht⟩
  rw [map_eq_pure_bind, Step.bind_apply, hy]
  rfl

end Fills

theorem noteScan_current (s : State) (t : Token) : (s.noteScan t).current = s.current := by
  unfold State.noteScan
  split <;> rfl

theorem noteScan_ahead (s : State) (t : Token) : (s.noteScan t).ahead = s.ahead := by
  unfold State.noteScan
  split <;> rfl

theorem noteScan_ending (s : State) (t : Token) : (s.noteScan t).ending = s.ending := by
  unfold State.noteScan
  split <;> rfl

theorem noteScan_lastStop (s : State) (t : Token) : (s.noteScan t).lastStop = s.lastStop := by
  unfold State.noteScan
  split <;> rfl

/-- A look at the next token consumes nothing. -/
theorem alike_noteScan (s : State) (t : Token) : Alike s { s.noteScan t with peeked := true } :=
  ⟨noteScan_current s t, noteScan_ahead s t, noteScan_ending s t, noteScan_lastStop s t⟩

/-- Passing over a token that is not the last before a fault. -/
theorem advance_ok {s : State} (hs : s.Proper) {k : Kind} {ks : List Kind} (hk : s.kinds = k :: ks)
    (h : ks ≠ [] ∨ s.clean) :
    ∃ s', Parser.advance s = .ok () s' ∧ s'.Proper ∧ s'.kinds = ks ∧ s'.clean = s.clean ∧
      s.left = s.current :: s'.left := by
  have hne : s.current.kind ≠ .endOfInput := by
    rw [Ne, ← State.Proper.kinds_eq_nil, hk]
    simp
  have hleft : s.left = s.current :: s.ahead := by simp [State.left, hne]
  obtain ⟨rfl, rfl⟩ := List.cons.inj (hk.symm.trans (State.Proper.kinds_of_ne hne))
  cases ha : s.ahead with
  | cons t ts =>
    have htk := hs.ahead t (by simp [ha])
    obtain ⟨s', hadvance, hc, hta, hte⟩ : ∃ s', Parser.advance s = .ok () s' ∧ s'.current = t ∧
        s'.ahead = ts ∧ s'.ending = s.ending :=
      ⟨{ s.noteScan t with current := t, ahead := ts, peeked := false, lastStop := s.current.stop },
        by rw [Parser.advance, ha], rfl, rfl, noteScan_ending s t⟩
    refine ⟨s', hadvance, ⟨fun u hu => hs.ahead u ?_, hte ▸ hs.ending, fun h => ?_⟩, ?_, ?_, ?_⟩
    · rw [ha, ← hta]
      exact List.mem_cons_of_mem _ hu
    · exact absurd (hc ▸ h) htk
    · rw [State.Proper.kinds_of_ne (hc ▸ htk), hc, hta, List.map_cons]
    · simp only [State.clean, hte]
    · rw [hleft, ha, State.left, hc, if_neg htk, hta]
  | nil =>
    have hclean : s.clean := h.resolve_left (by simp [ha])
    cases he : s.ending with
    | error f => simp [State.clean, he] at hclean
    | ok e =>
      have hek := hs.ending e he
      obtain ⟨s', hadvance, hc, hta, hte⟩ : ∃ s', Parser.advance s = .ok () s' ∧ s'.current = e ∧
          s'.ahead = s.ahead ∧ s'.ending = s.ending :=
        ⟨{ s.noteScan e with current := e, peeked := false, lastStop := s.current.stop },
          by rw [Parser.advance, ha, he], rfl, noteScan_ahead s e, noteScan_ending s e⟩
      have hclean' : s'.clean = s.clean := by simp only [State.clean, hte]
      refine ⟨s', hadvance, ⟨?_, hte ▸ hs.ending, fun _ => ?_⟩, ?_, hclean', ?_⟩
      · rw [hta]
        exact hs.ahead
      · exact ⟨hta.trans ha, hclean'.trans hclean⟩
      · exact (State.Proper.kinds_eq_nil s').mpr (hc ▸ hek)
      · rw [hleft, ha, State.left, hc, if_pos hek]

/-- A fault is not mended by more text. -/
theorem isIncomplete_fault (f : Token.Fault) : f.diagnostic.isIncomplete = false := by
  cases hr : f.reason <;> simp [Token.Fault.diagnostic, Diagnostic.isIncomplete, hr,
    Token.Reason.kind]

/-- The last token before a fault cannot be passed over. -/
theorem advance_fault {s : State} {k : Kind} (hk : s.kinds = [k])
    (h : s.clean = false) : ∃ d, Parser.advance s = .error d s ∧ d.isIncomplete = false := by
  have hne : s.current.kind ≠ .endOfInput := by
    rw [Ne, ← State.Proper.kinds_eq_nil, hk]
    simp
  have ha : s.ahead = [] := by
    rw [State.Proper.kinds_of_ne hne] at hk
    simpa using (List.cons.inj hk).2
  cases he : s.ending with
  | ok e => simp [State.clean, he] at h
  | error f =>
    exact ⟨f.diagnostic, by rw [Parser.advance, ha, he], isIncomplete_fault f⟩

namespace Reads

variable {n : Nat} {n' : ι → Nat} {follow : Follow}

theorem advance : Reads n n' (· ≠ []) none true Parser.advance fun _ : ι => Parser.advance := by
  intro s hs hK hlen
  obtain ⟨k, ks, hk⟩ := List.exists_cons_of_ne_nil hK
  by_cases h : ks ≠ [] ∨ s.clean
  · obtain ⟨s', hadvance, hp, hks, hclean, hleft⟩ := advance_ok hs hk h
    rw [hadvance]
    refine ⟨hp, hclean, ⟨[s.current], hleft, Nat.le_refl _⟩, fun more t i ht _ hb => ?_⟩
    have htk : t.kinds = k :: (ks ++ more) := by rw [ht.kinds, hk, List.cons_append]
    have hmore : ks ++ more ≠ [] ∨ t.clean := by
      by_cases hnil : ks = []
      · exact .inr (hb (hks.trans hnil)).2
      · exact .inl (by simp [hnil])
    obtain ⟨t', hadvance', hp', hks', hclean', -⟩ := advance_ok ht.proper htk hmore
    exact ⟨(), t', hadvance', ⟨hp', by rw [hks', hks], fun hc => ⟨(ht.faulty (hclean ▸ hc)).1,
      hclean'.trans (ht.faulty (hclean ▸ hc)).2⟩⟩, hclean'⟩
  · simp only [not_or, Decidable.not_not, Bool.not_eq_true] at h
    obtain ⟨rfl, hclean⟩ := h
    obtain ⟨d, hadvance, hd⟩ := advance_fault hk hclean
    rw [hadvance]
    refine ⟨fun h => ?_, fun _ => ⟨hK, fun more t i ht _ => ?_⟩⟩
    · rw [hd] at h
      cases h
    · obtain ⟨rfl, htc⟩ := ht.faulty hclean
      obtain ⟨d', hadvance', -⟩ := advance_fault
        (by rw [ht.kinds, hk, List.append_nil]) htc
      exact ⟨d', t, hadvance'⟩

/-- Passing over a token that is there. -/
theorem passes {K : List Kind → Prop} (hK : ∀ ks, K ks → first ks ≠ .endOfInput) :
    Reads n n' K follow true Parser.advance fun _ : ι => Parser.advance :=
  (advance.under fun ks hks hnil => hK ks hks (by rw [hnil]; rfl)).followed fun _ _ => trivial

end Reads

theorem Fills.advance {n : Nat} {follow : Follow} (k : Kind) :
    Fills n follow [k] Parser.advance := by
  intro s rest hs hclean hkinds _ _
  obtain ⟨s', hadvance, hp, hks, hclean', -⟩ := advance_ok hs hkinds (.inr hclean)
  exact ⟨(), s', hadvance, hp, hclean'.trans hclean, hks⟩

/-- Looking at the token after one that is not the last before a fault. -/
theorem peek_ok {s : State} (hs : s.Proper) {k : Kind} {ks : List Kind} (hk : s.kinds = k :: ks)
    (h : ks ≠ [] ∨ s.clean) : ∃ s', Parser.peek s = .ok (first ks) s' ∧ Alike s s' := by
  have hne : s.current.kind ≠ .endOfInput := by
    rw [Ne, ← State.Proper.kinds_eq_nil, hk]
    simp
  obtain ⟨rfl, rfl⟩ := List.cons.inj (hk.symm.trans (State.Proper.kinds_of_ne hne))
  cases ha : s.ahead with
  | cons t ts =>
    exact ⟨_, by rw [Parser.peek, ha]; rfl, alike_noteScan s t⟩
  | nil =>
    have hclean : s.clean := h.resolve_left (by simp [ha])
    cases he : s.ending with
    | error f => simp [State.clean, he] at hclean
    | ok e =>
      refine ⟨_, ?_, alike_noteScan s e⟩
      rw [Parser.peek, ha, he]
      dsimp only
      rw [hs.ending e he]
      rfl

theorem peek_fault {s : State} {k : Kind} (hk : s.kinds = [k]) (h : s.clean = false) :
    ∃ d, Parser.peek s = .error d s ∧ d.isIncomplete = false := by
  obtain ⟨d, hadvance, hd⟩ := advance_fault hk h
  refine ⟨d, ?_, hd⟩
  rw [Parser.advance] at hadvance
  rw [Parser.peek]
  split <;> simp_all

namespace Reads

variable {n : Nat} {n' : ι → Nat} {K : List Kind → Prop} {follow : Follow}

/-- Productions chosen by the kind of the token after the current one. Where the current token is
the last, the production chosen takes it, or else it finds that the text ended too early and there
are tokens to go on with. -/
theorem peek {p : Kind → Parser α} {q : ι → Kind → Parser α} {eats : Bool} (hK : ¬ K [])
    (h : ∀ k, k ≠ .endOfInput →
      Reads n n' (fun ks => K ks ∧ first ks.tail = k) follow eats (p k) fun i => q i k)
    (hend : ∀ i k, follow.Has k → q i k = q i .endOfInput)
    (hlone : ∀ s k, s.Proper → s.clean → s.kinds = [k] → K [k] → s.kinds.length < n →
      (∃ a s', p .endOfInput s = .ok a s' ∧
        Succeeds n' follow true (fun i => q i .endOfInput) s s') ∨
      ∃ d s', p .endOfInput s = .error d s' ∧ d.isIncomplete ∧
        ∃ fill, (∀ k ∈ fill, k ∈ fillers) ∧
          ∀ i, Fills (n' i) follow (k :: fill) (Parser.peek >>= q i)) :
    Reads n n' K follow eats (Parser.peek >>= p) fun i => Parser.peek >>= q i := by
  intro s hs hKs hlen
  obtain ⟨k, ks, hk⟩ := List.exists_cons_of_ne_nil fun hnil => hK (hnil ▸ hKs)
  cases ks with
  | nil =>
    by_cases hclean : s.clean
    · obtain ⟨s₁, hpeek, hss₁⟩ := peek_ok hs hk (.inr hclean)
      rw [Step.bind_apply, hpeek]
      dsimp only [first]
      obtain ⟨a, s', hok, hxs⟩ | ⟨d, s', herror, hd, fill, hfill, hrun⟩ := hlone s₁ k
        (hss₁.proper hs) (hss₁.clean.trans hclean) (hss₁.kinds.trans hk) (hk ▸ hKs)
        (hss₁.kinds ▸ hlen)
      · rw [hok]
        have hle := hxs.length_le
        rw [hss₁.kinds, hk] at hle
        have hnil : s'.kinds = [] :=
          List.eq_nil_of_length_eq_zero (Nat.le_zero.mp (Nat.le_of_succ_le_succ hle))
        obtain ⟨taken, htaken, hlen'⟩ := hxs.suffix
        refine ⟨hxs.proper, hxs.clean.trans hss₁.clean,
          ⟨taken, hss₁.left ▸ htaken, Nat.le_trans (Bool.toNat_le eats) hlen'⟩,
          fun more t i ht htl hb => ?_⟩
        have htk : t.kinds = k :: more := by rw [ht.kinds, hk, List.singleton_append]
        obtain ⟨t₁, hpeek', htt₁⟩ := peek_ok ht.proper htk (.inr (hb hnil).2)
        rw [Step.bind_apply, hpeek', ← htt₁.clean]
        dsimp only
        rw [hend i _ (hb hnil).1]
        exact hxs.agrees more t₁ i (htt₁.extends_right (hss₁.extends_left ht)) (htt₁.kinds ▸ htl)
          fun h => ⟨(hb h).1, htt₁.clean.trans (hb h).2⟩
      · rw [herror]
        refine ⟨fun _ => ⟨hclean, fun _ => ⟨fill, hfill, fun rest t i ht htc hr htl => ?_⟩⟩,
          fun hd' => ?_⟩
        · exact hrun i t rest ht.proper htc (by rw [ht.kinds, hk]; rfl) hr htl
        · rw [hd] at hd'
          cases hd'
    · rw [Bool.not_eq_true] at hclean
      obtain ⟨d, hpeek, hd⟩ := peek_fault hk hclean
      rw [Step.bind_apply, hpeek]
      refine ⟨fun h => ?_, fun _ => ⟨by simp [hk], fun more t i ht _ => ?_⟩⟩
      · rw [hd] at h
        cases h
      · obtain ⟨rfl, htc⟩ := ht.faulty hclean
        obtain ⟨d', hpeek', -⟩ := peek_fault (by rw [ht.kinds, hk, List.append_nil]) htc
        exact ⟨d', t, by rw [Step.bind_apply, hpeek']⟩
  | cons k' ks =>
    obtain ⟨s₁, hpeek, hss₁⟩ := peek_ok hs hk (.inl (by simp))
    have hk' : k' ≠ .endOfInput := by
      rintro rfl
      exact hs.not_mem_kinds (by simp [hk])
    have hxs := h k' hk' s₁ (hss₁.proper hs)
      ⟨hss₁.kinds ▸ hKs, by rw [hss₁.kinds, hk]; rfl⟩ (hss₁.kinds ▸ hlen)
    -- on a longer input the choice is the same
    have hsame : ∀ more t i, Extends s more t →
        ∃ t₁, (Parser.peek >>= q i) t = q i k' t₁ ∧ Alike t t₁ := by
      intro more t i ht
      have htk : t.kinds = k :: k' :: (ks ++ more) := by rw [ht.kinds, hk]; rfl
      obtain ⟨t₁, hpeek', htt₁⟩ := peek_ok ht.proper htk (.inl (by simp))
      exact ⟨t₁, by rw [Step.bind_apply, hpeek']; rfl, htt₁⟩
    rw [Step.bind_apply, hpeek]
    dsimp only [first]
    cases hx : p k' s₁ with
    | exhausted => rw [hx] at hxs; exact hxs
    | error d s' =>
      rw [hx] at hxs
      refine ⟨fun hd => ?_, fun hd => ?_⟩
      · obtain ⟨hclean, hcomplete⟩ := hxs.completes hd
        refine ⟨hss₁.clean ▸ hclean, fun hne => ?_⟩
        obtain ⟨more, hmore, hrun⟩ := hcomplete (hss₁.kinds ▸ hne)
        refine ⟨more, hmore, fun rest t i ht htc hr htl => ?_⟩
        obtain ⟨t₁, hq, htt₁⟩ := hsame _ t i ht
        rw [hq]
        exact hrun rest t₁ i (htt₁.extends_right (hss₁.extends_left ht))
          (htt₁.clean.trans htc) hr (htt₁.kinds ▸ htl)
      · obtain ⟨hne, hrun⟩ := hxs.persists hd
        refine ⟨hss₁.kinds ▸ hne, fun more t i ht htl => ?_⟩
        obtain ⟨t₁, hq, htt₁⟩ := hsame _ t i ht
        rw [hq]
        exact hrun more t₁ i (htt₁.extends_right (hss₁.extends_left ht)) (htt₁.kinds ▸ htl)
    | ok a s' =>
      rw [hx] at hxs
      refine ⟨hxs.proper, hxs.clean.trans hss₁.clean, hss₁.left ▸ hxs.suffix,
        fun more t i ht htl hb => ?_⟩
      obtain ⟨t₁, hq, htt₁⟩ := hsame _ t i ht
      rw [hq, ← htt₁.clean]
      exact hxs.agrees more t₁ i (htt₁.extends_right (hss₁.extends_left ht)) (htt₁.kinds ▸ htl)
        fun h => ⟨(hb h).1, htt₁.clean.trans (hb h).2⟩

end Reads

namespace Fills

variable {n : Nat} {follow : Follow} {k : Kind}

theorem peek {k' : Kind} {fill : List Kind} {p : Kind → Parser α}
    (h : Fills n follow (k :: k' :: fill) (p k')) :
    Fills n follow (k :: k' :: fill) (Parser.peek >>= p) := by
  intro s rest hs hclean hkinds hrest hlen
  obtain ⟨s₁, hpeek, hss₁⟩ := peek_ok hs hkinds (.inr hclean)
  rw [Step.bind_apply, hpeek]
  exact h s₁ rest (hss₁.proper hs) (hss₁.clean.trans hclean) (hss₁.kinds.trans hkinds) hrest
    (hss₁.kinds ▸ hlen)

theorem peek_last {p : Kind → Parser α} (h : ∀ k', follow.Has k' → Fills n follow [k] (p k')) :
    Fills n follow [k] (Parser.peek >>= p) := by
  intro s rest hs hclean hkinds hrest hlen
  obtain ⟨s₁, hpeek, hss₁⟩ := peek_ok hs hkinds (.inr hclean)
  rw [Step.bind_apply, hpeek]
  exact h _ hrest s₁ rest (hss₁.proper hs) (hss₁.clean.trans hclean) (hss₁.kinds.trans hkinds) hrest
    (hss₁.kinds ▸ hlen)

end Fills

end Kotoba.Syntax
