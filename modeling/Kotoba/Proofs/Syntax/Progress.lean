import Kotoba.Proofs.Syntax.Completion
import Kotoba.Proofs.Syntax.Fuel

/-! Progress. A production that succeeds has taken a token; and a loop that goes on, or a production
that comes back to itself, has fewer tokens to come than when it was entered. The number of tokens
to come bounds therefore how long a parse takes, and at the end of input no loop goes on, although
the end of input can be passed over again and again. -/
namespace Kotoba.Syntax

open Token (Kind)
open Kotoba.Syntax.Parser

variable {α β γ : Type}

/-- The number of tokens that are not consumed yet. The current token is one of them, the end of
input is not. -/
abbrev State.unread (s : State) : Nat := s.kinds.length

theorem State.unread_eq_zero {s : State} : s.unread = 0 ↔ s.current.kind = .endOfInput := by
  rw [State.unread, List.length_eq_zero_iff, State.Proper.kinds_eq_nil]

/-- Productions `x n` with fuel `n` that do not succeed on nothing. -/
structure Progresses (x : Nat → Parser α) : Prop where
  /-- What succeeds has taken tokens, at least one. -/
  eats : ∀ n s a s', s.Proper → x n s = .ok a s' →
    s'.Proper ∧ s'.unread < s.unread ∧ ∃ taken, s.left = taken ++ s'.left
  /-- More fuel than tokens is enough. -/
  halts : ∀ n, Halts n (x n)
  /-- Beyond that, fuel makes no difference. -/
  stable : ∀ n m s, s.Proper → s.unread < n → n ≤ m → x m s = x n s

theorem Progresses.of_reads {x : Nat → Parser α} {follow : Follow}
    (hreads : ∀ n, Reads n (fun _ : Unit => n) (fun _ => True) follow true (x n) fun _ => x n)
    (hgrown : ∀ n, Grown (x n) (x (n + 1))) : Progresses x where
  eats n s a s' hs h := by
    -- with enough fuel the outcome is the same
    have hmore : Grown (x n) (x (max n (s.unread + 1))) := .of_le hgrown (Nat.le_max_left _ _)
    have hsame : x (max n (s.unread + 1)) s = .ok a s' := by
      rw [← hmore.eq (by rw [h]; rintro ⟨⟩), h]
    have hread := hreads _ s hs trivial
      (Nat.lt_of_lt_of_le (Nat.lt_succ_self _) (Nat.le_max_right n _))
    rw [hsame] at hread
    obtain ⟨taken, htaken, -⟩ := hread.suffix
    exact ⟨hread.proper, hread.length_le, taken, htaken⟩
  halts n := (Ends.of_reads (hreads n)).halts
  stable n m s hs hlen hle :=
    ((Grown.of_le hgrown hle).eq ((Ends.of_reads (hreads n)).halts s hs hlen)).symm

theorem Progresses.ends {x : Nat → Parser α} (h : Progresses x) (n : Nat) : Ends n true (x n) where
  halts := h.halts n
  leaves s a s' hs _ hx := by
    obtain ⟨hs', hlt, -⟩ := h.eats n s a s' hs hx
    exact ⟨hs', hlt⟩

/-- Productions for a whole text that come to an end on every text, with little more fuel than the
text has tokens, and do the same with any more. -/
structure Terminates (production : Nat → Parser α) : Prop where
  halts : ∀ limits text, run production limits text ≠ .exhausted
  stable : ∀ limits text fuel, (Token.tokenize limits text).tokens.length + 2 ≤ fuel →
    production fuel (.ofScan (Token.tokenize limits text)) = run production limits text

theorem Terminates.of_ne_exhausted {x : Nat → Parser α}
    (hx : ∀ {a : Token.Scan}, ProperScan a → x (a.tokens.length + 2) (.ofScan a) ≠ .exhausted)
    (hgrown : ∀ n, Grown (x n) (x (n + 1))) : Terminates x where
  halts _ _ := hx (properScan_scanAll _ _ _)
  stable _ _ _ hfuel :=
    ((Grown.of_le hgrown hfuel).eq (hx (properScan_scanAll _ _ _))).symm

/-- `x` where fewer than `u` tokens are unread. Anywhere else it gives up. -/
def below (u : Nat) (x : Parser α) : Parser α := fun s =>
  if s.unread < u then x s else .exhausted

/-- How `x` comes back to itself where fewer than `n` tokens are unread: with one more unit of fuel,
it makes one more `round`. A round may carry a value along. -/
structure Descends (n : Nat) (x : Nat → γ → Parser α)
    (round : Nat → (γ → Parser α) → γ → Parser α) : Prop where
  unfolds : ∀ k, x (k + 1) = round k (x k)
  halts : ∀ k c s, s.Proper → s.unread < n → s.unread ≤ k → x (k + 1) c s ≠ .exhausted
  /-- A round has taken a token when it comes back to `x`: nothing changes if `x` gives up wherever
  no fewer tokens are unread than at the start of the round. -/
  descends : ∀ k c s, s.Proper → s.unread < n → s.unread ≤ k →
    round k (fun c => below s.unread (x k c)) c s = x (k + 1) c s
  /-- At the end of input a round does not come back. -/
  stops : ∀ k c s, s.Proper → 0 < n → s.current.kind = .endOfInput →
    round k (fun _ => Step.exhausted) c s = x (k + 1) c s

section Below

variable {u : Nat} {x : Parser α}

theorem below_of_lt {s : State} (h : s.unread < u) : below u x s = x s := if_pos h

theorem below_zero (x : Parser α) : below 0 x = Step.exhausted :=
  funext fun _ => if_neg (Nat.not_lt_zero _)

theorem grown_below (u : Nat) (x : Parser α) : Grown (below u x) x := by
  intro s
  unfold below
  split
  · exact .inr rfl
  · exact .inl rfl

theorem Halts.below (h : Halts u x) : Halts u (below u x) := by
  intro s hs hlen
  rw [below_of_lt hlen]
  exact h s hs hlen

theorem Takes.below {ι : Type} {n' : ι → Nat} {K : List Kind → Prop} {follow : Follow}
    {fill : List Kind} {eats : Bool} {y : ι → Parser α} (h : Takes u n' K follow fill eats x y) :
    Takes u n' K follow fill eats (below u x) y := by
  refine ⟨fun s hs hK hlen => ?_, h.fills, h.fillers⟩
  rw [below_of_lt hlen]
  exact h.reads s hs hK hlen

end Below

theorem Halts.mono {n m : Nat} {x : Parser α} (h : Halts n x) (hm : m ≤ n) : Halts m x :=
  fun s hs hlen => h s hs (Nat.lt_of_lt_of_le hlen hm)

theorem Ends.within {n m : Nat} {eats : Bool} {x : Parser α} (h : Ends n eats x) (hm : m ≤ n) :
    Ends m eats x :=
  ⟨h.halts.mono hm, fun s a s' hs hlen => h.leaves s a s' hs (Nat.lt_of_lt_of_le hlen hm)⟩

namespace Descends

variable {n : Nat} {x : Nat → γ → Parser α}

/-- A round that comes to an end with what gives up where no token was taken did not come back
there. -/
theorem of_grown {round : Nat → (γ → Parser α) → γ → Parser α}
    (hunfolds : ∀ k, x (k + 1) = round k (x k))
    (hgrown : ∀ k (y z : γ → Parser α), (∀ c, Grown (y c) (z c)) →
      ∀ c, Grown (round k y c) (round (k + 1) z c))
    (hhalts : ∀ k c s, s.Proper → s.unread < n → s.unread ≤ k → x (k + 1) c s ≠ .exhausted)
    (hround : ∀ k c s, s.Proper → s.unread < n → s.unread ≤ k →
      round s.unread (fun c => below s.unread (x k c)) c s ≠ .exhausted) :
    Descends n x round := by
  have hdescends : ∀ k c s, s.Proper → s.unread < n → s.unread ≤ k →
      round k (fun c => below s.unread (x k c)) c s = x (k + 1) c s := by
    intro k c s hs hn hk
    let y : γ → Parser α := fun c => below s.unread (x k c)
    have hfuel : Grown (round s.unread y c) (round k y c) :=
      Grown.of_le (x := fun k => round k y c) (fun k => hgrown k y y (fun _ => .refl _) c) hk
    have hne : round k y c s ≠ .exhausted := by
      rw [← hfuel.eq (hround k c s hs hn hk)]
      exact hround k c s hs hn hk
    have hx := hhalts k c s hs hn hk
    rw [hunfolds] at hx ⊢
    -- both come to what a round with more fuel comes to
    calc round k y c s = round (k + 1) (x k) c s :=
          (hgrown k y (x k) (fun c => grown_below _ (x k c)) c).eq hne
      _ = round k (x k) c s := ((hgrown k (x k) (x k) (fun _ => .refl _) c).eq hx).symm
  refine ⟨hunfolds, hhalts, hdescends, fun k c s hs hn hend => ?_⟩
  have hnone : s.unread = 0 := State.unread_eq_zero.mpr hend
  simpa only [hnone, below_zero] using hdescends k c s hs (hnone ▸ hn) (hnone ▸ Nat.zero_le k)

/-- For a loop it is enough that a round comes to an end on one token more than what it comes back
to. -/
theorem of_loop {round : (γ → Parser α) → γ → Parser α}
    (hunfolds : ∀ k, x (k + 1) = round (x k))
    (hgrown : ∀ y z : γ → Parser α, (∀ c, Grown (y c) (z c)) → ∀ c, Grown (round y c) (round z c))
    (hhalts : ∀ u (y : γ → Parser α), u < n → (∀ c, Halts u (y c)) →
      ∀ c, Halts (u + 1) (round y c)) :
    Descends n x fun _ => round := by
  have hx : ∀ k u, u ≤ k → u ≤ n → ∀ c, Halts u (x k c) := by
    intro k
    induction k with
    | zero => exact fun u hu _ _ s _ hlen => absurd hlen (by omega)
    | succ k ih =>
      intro u hu hn c
      cases u with
      | zero => exact fun s _ hlen => absurd hlen (Nat.not_lt_zero _)
      | succ u =>
        rw [hunfolds]
        exact hhalts u (x k) hn (ih u (by omega) (by omega)) c
  refine .of_grown hunfolds (fun _ => hgrown) (fun k c s hs hn hk => ?_) fun k c s hs hn hk => ?_
  · exact hx (k + 1) (s.unread + 1) (by omega) hn c s hs (Nat.lt_succ_self _)
  · exact hhalts s.unread _ hn (fun c => (hx k _ hk (by omega) c).below) c s hs (Nat.lt_succ_self _)

end Descends

section Ending

variable {n u : Nat}

/-- A token is passed over, so there are fewer to come for what comes next. -/
theorem pass_ne_exhausted {f : Unit → Parser α} (hf : ∀ a, Halts u (f a)) {s : State}
    (hs : s.Proper) (hne : s.current.kind ≠ .endOfInput) (hlen : s.unread < u + 1) :
    (advance >>= f) s ≠ .exhausted := by
  have hpass : Reads (u + 1) (fun _ : Unit => u + 1) (fun ks => first ks ≠ .endOfInput) none true
      advance fun _ => advance := Reads.passes fun _ h => h
  have hfirst : first s.kinds ≠ .endOfInput := by rwa [State.Proper.first_kinds]
  have hread := hpass s hs hfirst hlen
  rw [Step.bind_apply]
  cases hadvance : advance s with
  | ok a s' =>
    rw [hadvance] at hread
    exact hf a s' hread.proper (Nat.lt_of_succ_lt_succ (Nat.lt_of_le_of_lt hread.length_le hlen))
  | error d s' => rintro ⟨⟩
  | exhausted =>
    rw [hadvance] at hread
    exact hread.elim

/-- A test for a kind of token; where the test succeeds there is such a token. -/
theorem Halts.test {k : Kind} {p q : Parser α}
    (hp : ∀ s, s.Proper → s.current.kind = k → s.unread < n → p s ≠ .exhausted) (hq : Halts n q) :
    Halts n (at? k >>= fun b => if b then p else q) := by
  intro s hs hlen
  rw [Step.bind_apply, at?, Step.gets]
  dsimp only
  split
  · next hk => exact hp s hs (by simpa using hk) hlen
  · exact hq s hs hlen

theorem Halts.pure (a : α) : Halts n (Pure.pure a) := (Ends.pure a).halts

theorem Halts.before_pure {x : Parser α} (h : Halts n x) (f : α → β) :
    Halts n (x >>= fun a => Pure.pure (f a)) := by
  intro s hs hlen
  rw [Step.bind_apply]
  cases hx : x s with
  | ok a s' => rintro ⟨⟩
  | error d s' => rintro ⟨⟩
  | exhausted => exact absurd hx (h s hs hlen)

/-- What comes after a comma, if there is one. -/
theorem Halts.comma {f : Unit → Parser α} {q : Parser α} (hf : ∀ a, Halts n (f a))
    (hq : Halts n q) : Halts n (at? Mark.comma >>= fun b => if b then advance >>= f else q) :=
  .test (fun _ hs hk hlen =>
    pass_ne_exhausted hf hs (by rw [hk]; decide) (Nat.lt_succ_of_lt hlen)) hq

theorem ends_expectName (n : Nat) : Ends n true expectName := by
  have hreads : Reads n (fun _ : Unit => n) (fun _ => True) none true expectName
      fun _ => expectName := reads_expectName
  exact .of_reads hreads

theorem ends_parenthesized (n : Nat) : Ends n true (parenthesized (expression n)) := by
  have hexpr : TakesExpr n (fun _ : Unit => n) .integer (expression n) fun _ => expression n :=
    takes_expression (.inl rfl) fun _ => Nat.le_refl n
  have htakes := takes_parenthesized (K := fun _ => True) hexpr (by decide)
  exact .of_reads htakes.reads

theorem ends_skipSemicolon (n : Nat) : Ends n false skipSemicolon := by
  have htakes : Takes n (fun _ : Unit => n) (fun _ => True) (some []) [] false skipSemicolon
      fun _ => skipSemicolon := takes_skipSemicolon (by decide)
  exact .of_reads htakes.reads

end Ending

section Productions

theorem progresses_factor : Progresses factor :=
  .of_reads (fun n => (takes_factor (.inl rfl) fun _ => Nat.le_refl n).reads) grown_factor

theorem progresses_product : Progresses fun n => product (factor n) n := by
  have hle : ∀ n, ∀ _ : Unit, n ≤ n := fun n _ => Nat.le_refl n
  exact .of_reads (fun n => (takes_product (takes_factor (.inl rfl) (hle n)) (hle n)).reads)
    fun n => grown_product (grown_factor n) n

theorem progresses_sumExpr : Progresses sumExpr :=
  .of_reads (fun n => (takes_sumExpr (.inl rfl) fun _ => Nat.le_refl n).reads) grown_sumExpr

theorem progresses_expression : Progresses expression :=
  .of_reads (fun n => (takes_expression (.inl rfl) fun _ => Nat.le_refl n).reads) grown_expression

theorem progresses_statement : Progresses statement :=
  .of_reads (fun n => (takes_statement fun _ => Nat.le_refl n).reads) grown_statement

theorem progresses_braced (conditional : Bool) :
    Progresses fun n => braced (statement n) n conditional := by
  have hle : ∀ n, ∀ _ : Unit, n ≤ n := fun n _ => Nat.le_refl n
  exact .of_reads (fun n => (takes_braced (takes_statement (hle n)) (hle n) conditional).reads)
    fun n => grown_braced (grown_statement n) n conditional

theorem progresses_definition : Progresses definition :=
  .of_reads (fun n => reads_definition fun _ => Nat.le_refl n) grown_definition

end Productions

section Rounds

/-- One round of a chain: an operator and its right operand are read, and the chain goes on with
what was read so far. -/
def chainRound (layer : Layer) (op? : Kind → Option Op) (operand : Parser Expr) (start : Position)
    (next : Expr → Parser Expr) (left : Expr) : Parser Expr := do
  match op? (← kind) with
  | none => pure left
  | some op =>
    let op ← operator op
    let right ← operand
    let span ← finish start
    next (.binary layer left op right span)

/-- One round of a list with commas. -/
def commaRound (item : Parser α) (next : Unit → Parser (List α)) (_ : Unit) :
    Parser (List α) := do
  let first ← item
  if ← at? Mark.comma then
    advance
    let rest ← next ()
    pure (first :: rest)
  else pure [first]

/-- One round of the elements in braces. -/
def elementsRound (expr : Parser Expr) (next : Unit → Parser (List Expr)) (_ : Unit) :
    Parser (List Expr) := do
  if ← at? Mark.closeBrace then pure []
  else
    let first ← expr
    if ← at? Mark.comma then
      advance
      let rest ← next ()
      pure (first :: rest)
    else pure [first]

/-- One round of a list of statements. -/
def statementsRound (statement : Parser Stmt) (next : Unit → Parser (List Stmt)) (_ : Unit) :
    Parser (List Stmt) := do
  if startsStatement (← kind) then
    let first ← statement
    skipSemicolon
    let rest ← next ()
    pure (first :: rest)
  else pure []

/-- One round of the further conditions of a conditional. -/
def orWhensRound (expr : Parser Expr) (block : Parser Body) (next : Unit → Parser (List OrWhen))
    (_ : Unit) : Parser (List OrWhen) := do
  if ← at? Mark.orWhen then
    let start ← here
    advance
    let condition ← parenthesized expr
    let b ← block
    let span ← finish start
    let rest ← next ()
    pure (⟨condition, b, span⟩ :: rest)
  else pure []

/-- One round of the definitions of a program. -/
def definitionsRound (item : Parser FuncDef) (next : Unit → Parser (List FuncDef)) (_ : Unit) :
    Parser (List FuncDef) := do
  if ← at? Mark.define then
    let first ← item
    let rest ← next ()
    pure (first :: rest)
  else pure []

/-- A factor, all factors within it read by `next`. -/
def factorRound (fuel : Nat) (next : Unit → Parser Expr) (_ : Unit) : Parser Expr :=
  factorWith (comparison (next ()) fuel) (sum (next ()) fuel) (next ()) fuel

/-- A statement, all statements within it read by `next`. -/
def statementRound (fuel : Nat) (next : Unit → Parser Stmt) (_ : Unit) : Parser Stmt :=
  statementWith (expression fuel) (sumExpr fuel) (braced (next ()) fuel true) fuel

variable {n : Nat}

theorem descends_chain {op? : Kind → Option Op} (hop : op? .endOfInput = none) (layer : Layer)
    {operand : Parser Expr} (hoperand : Ends n true operand) (start : Position) :
    Descends n (chain layer op? operand start) fun _ => chainRound layer op? operand start := by
  refine .of_loop (fun _ => rfl) (fun y z h left => ?_) fun u y hu hy left s hs hlen => ?_
  · refine .after fun k => ?_
    cases op? k with
    | none => exact .refl _
    | some op => exact .after fun _ => .after fun _ => .after fun _ => h _
  · have hrest : ∀ o : Operator, Halts u (operand >>= fun right => finish start >>= fun span =>
        y (.binary layer left o right span)) := fun o =>
      (hoperand.within (Nat.le_of_lt hu)).then_halts (m := u) (fun right s' => hy _ s')
        (Nat.le_add_right _ _)
    change (match op? s.current.kind with | none => _ | some op => _ : Parser Expr) s ≠ _
    cases hk : op? s.current.kind with
    | none => rintro ⟨⟩
    | some op =>
      have hne : s.current.kind ≠ .endOfInput := by
        intro hend
        rw [hend, hop] at hk
        cases hk
      simp only [operator, bind_assoc, pure_bind]
      exact pass_ne_exhausted (fun _ => hrest ⟨op, s.current.span⟩) hs hne hlen

theorem descends_commaList {item : Parser α} (hitem : Ends n true item) :
    Descends n (fun k (_ : Unit) => commaList item k) fun _ => commaRound item := by
  refine .of_loop (fun _ => rfl) (fun y z h _ => ?_) fun u y hu hy _ => ?_
  · exact .after fun _ => .after fun _ => .ite (.after fun _ => (h ()).before _) (.refl _)
  · exact (hitem.within hu).then_halts
      (fun first => .comma (fun _ => (hy ()).before_pure _) (.pure [first])) (Nat.le_refl _)

theorem descends_elements {expr : Parser Expr} (hexpr : Ends n true expr) :
    Descends n (fun k (_ : Unit) => elements expr k) fun _ => elementsRound expr := by
  refine .of_loop (fun _ => rfl) (fun y z h _ => ?_) fun u y hu hy _ => ?_
  · exact .after fun _ => .ite (.refl _)
      (.after fun _ => .after fun _ => .ite (.after fun _ => (h ()).before _) (.refl _))
  · refine .test (fun _ _ _ _ => by rintro ⟨⟩) ((hexpr.within hu).then_halts (fun first => ?_)
      (Nat.le_refl _))
    exact .comma (fun _ => (hy ()).before_pure _) (.pure [first])

theorem descends_statements {statement : Parser Stmt} (hstatement : Ends n true statement) :
    Descends n (fun k (_ : Unit) => statements statement k) fun _ => statementsRound statement := by
  refine .of_loop (fun _ => rfl) (fun y z h _ => ?_) fun u y hu hy _ s hs hlen => ?_
  · exact .after fun _ => .ite (.after fun _ => .after fun _ => (h ()).before _) (.refl _)
  · have hone : Halts (u + 1) (statement >>= fun first => skipSemicolon >>= fun _ =>
        y () >>= fun rest => pure (first :: rest)) :=
      (hstatement.within hu).then_halts (fun first => (ends_skipSemicolon u).then_halts
        (fun _ => (hy ()).before_pure _) (Nat.le_refl _)) (Nat.le_refl _)
    change (if startsStatement s.current.kind then _ else _ : Parser (List Stmt)) s ≠ _
    split
    · exact hone s hs hlen
    · rintro ⟨⟩

theorem descends_orWhens {expr : Parser Expr} {block : Parser Body}
    (hcondition : Ends n true (parenthesized expr)) (hblock : Ends n true block) :
    Descends n (fun k (_ : Unit) => orWhens expr block k) fun _ => orWhensRound expr block := by
  refine .of_loop (fun _ => rfl) (fun y z h _ => ?_) fun u y hu hy _ => ?_
  · refine .after fun _ => .ite (.after fun _ => .after fun _ => .after fun _ => ?_) (.refl _)
    exact .after fun _ => .after fun _ => (h ()).before _
  · have hle : u ≤ n := Nat.le_of_lt hu
    have hrest : ∀ start, Halts u (parenthesized expr >>= fun condition => block >>= fun b =>
        finish start >>= fun span => y () >>= fun rest =>
          pure ((⟨condition, b, span⟩ : OrWhen) :: rest)) := fun start =>
      (hcondition.within hle).then_halts (fun _ => (hblock.within hle).then_halts
        (fun _ s' => (hy ()).before_pure _ s') (Nat.le_add_right _ _)) (Nat.le_add_right _ _)
    exact .test (fun s hs hk => pass_ne_exhausted (fun _ => hrest s.current.start) hs
      (by rw [hk]; decide)) (.pure [])

theorem descends_definitions {item : Parser FuncDef} (hitem : Ends n true item) :
    Descends n (fun k (_ : Unit) => definitions item k) fun _ => definitionsRound item := by
  refine .of_loop (fun _ => rfl) (fun y z h _ => ?_) fun u y hu hy _ => ?_
  · exact .after fun _ => .ite (.after fun _ => (h ()).before _) (.refl _)
  · have hone : Halts (u + 1) (item >>= fun first => y () >>= fun rest => pure (first :: rest)) :=
      (hitem.within hu).then_halts (fun first => (hy ()).before_pure _) (Nat.le_refl _)
    exact .test (fun s hs _ => hone s hs) (.pure [])

theorem descends_factor (n : Nat) : Descends n (fun k (_ : Unit) => factor k) factorRound := by
  refine .of_grown (fun _ => rfl) (fun k y z h _ => ?_) (fun k _ s hs _ hk => ?_)
    fun k _ s hs _ hk => ?_
  · exact grown_factorWith (grown_comparison (h ()) k) k (grown_sum (h ()) k) (h ())
  · exact progresses_factor.halts (k + 1) s hs (Nat.lt_succ_of_le hk)
  · have hle : ∀ _ : Unit, s.unread ≤ k := fun _ => hk
    have hnext : TakesExpr s.unread (fun _ : Unit => k) .integer (below s.unread (factor k))
        fun _ => factor k :=
      ((takes_factor (.inl rfl) fun _ => Nat.le_refl k).within hk fun _ => Nat.le_refl k).below
    have hreads : Reads (s.unread + 1) (fun _ => k + 1) (fun _ => True) endsExpr true
        (factorRound s.unread (fun _ => below s.unread (factor k)) ()) fun _ => factor (k + 1) :=
      reads_factorWith (takes_comparison hnext hle) (takes_sum hnext hle) hnext hle
    exact (Ends.of_reads hreads).halts s hs (Nat.lt_succ_self _)

theorem descends_statement (n : Nat) :
    Descends n (fun k (_ : Unit) => statement k) statementRound := by
  refine .of_grown (fun _ => rfl) (fun k y z h _ => ?_) (fun k _ s hs _ hk => ?_)
    fun k _ s hs _ hk => ?_
  · exact grown_statementWith (grown_expression k) k (grown_braced (h ()) k true) (grown_sumExpr k)
  · exact progresses_statement.halts (k + 1) s hs (Nat.lt_succ_of_le hk)
  · have hle : ∀ _ : Unit, s.unread ≤ k := fun _ => hk
    have hname : TakesExpr s.unread (fun _ : Unit => s.unread) .identifier (expression s.unread)
        fun _ => expression s.unread := takes_expression (.inr rfl) fun _ => Nat.le_refl _
    have hnext : TakesStmt s.unread (fun _ : Unit => k) (below s.unread (statement k))
        fun _ => statement k :=
      ((takes_statement fun _ => Nat.le_refl k).within hk fun _ => Nat.le_refl k).below
    have hreads : Reads (s.unread + 1) (fun _ => k + 1) (fun _ => True) endsStmt true
        (statementRound s.unread (fun _ => below s.unread (statement k)) ())
        fun _ => statement (k + 1) :=
      reads_statementWith (takes_expression (.inl rfl) hle) (takes_sumExpr (.inl rfl) hle)
        (takes_braced hnext hle true) (hname.fills ()) hle
    exact (Ends.of_reads hreads).halts s hs (Nat.lt_succ_self _)

end Rounds

/-- The end of input can be passed over; what comes after it is the end of input. -/
theorem advance_at_end {s : State} (hs : s.Proper) (hend : s.current.kind = .endOfInput) :
    ∃ s', advance s = .ok () s' ∧ s'.Proper ∧ s'.current.kind = .endOfInput := by
  obtain ⟨hahead, hclean⟩ := hs.ended hend
  cases he : s.ending with
  | error f => simp [State.clean, he] at hclean
  | ok e =>
    have hkind := hs.ending e he
    refine ⟨_, by rw [advance, hahead, he], ⟨?_, ?_, fun _ => ?_⟩, hkind⟩
    · rw [noteScan_ahead]
      exact hs.ahead
    · rw [noteScan_ending]
      exact hs.ending
    · simpa [noteScan_ahead, State.clean, noteScan_ending, he] using hahead

/-- Once its first token is fetched, all tokens of a text are unread. -/
theorem proper_of_fetch {a : Token.Scan} (ha : ProperScan a) {s : State}
    (h : advance (.ofScan a) = .ok () s) : s.Proper ∧ s.left = a.tokens := by
  obtain ⟨s', hs', hproper, hleft, -⟩ | ⟨-, f, -, hfault⟩ := fetch ha
  · rw [h] at hs'
    cases hs'
    exact ⟨hproper, hleft⟩
  · rw [h] at hfault
    cases hfault

/-- A production that succeeds has taken a token. A production that contains itself, and a loop that
goes on, has taken one before it comes back; no loop goes on at the end of input, though the end of
input can be passed over for ever. So programs and entries come to an end, whatever their text, and
no production asks for a node of a layer that there is not. -/
theorem parser_progresses :
    (Progresses factor ∧ Progresses (fun n => product (factor n) n) ∧ Progresses sumExpr ∧
      Progresses expression ∧ Progresses statement ∧
      (∀ conditional, Progresses fun n => braced (statement n) n conditional) ∧
      Progresses definition) ∧
    (∀ n, Descends n (fun k _ => factor k) factorRound ∧
      Descends n (fun k _ => statement k) statementRound) ∧
    (∀ n start,
      Descends n (chain .multiplicative multiplicativeOp? (factor n) start)
        (fun _ => chainRound .multiplicative multiplicativeOp? (factor n) start) ∧
      Descends n (chain .additive additiveOp? (product (factor n) n) start)
        (fun _ => chainRound .additive additiveOp? (product (factor n) n) start) ∧
      Descends n (fun k _ => commaList (expression n) k) (fun _ => commaRound (expression n)) ∧
      Descends n (fun k _ => commaList expectName k) (fun _ => commaRound expectName) ∧
      Descends n (fun k _ => elements (expression n) k) (fun _ => elementsRound (expression n)) ∧
      Descends n (fun k _ => statements (statement n) k) (fun _ => statementsRound (statement n)) ∧
      Descends n (fun k _ => orWhens (expression n) (braced (statement n) n true) k)
        (fun _ => orWhensRound (expression n) (braced (statement n) n true)) ∧
      Descends n (fun k _ => definitions (definition n) k)
        (fun _ => definitionsRound (definition n))) ∧
    (∀ s : State, s.Proper → s.current.kind = .endOfInput →
      ∃ s', advance s = .ok () s' ∧ s'.Proper ∧ s'.current.kind = .endOfInput) ∧
    (∀ limits text s, advance (.ofScan (Token.tokenize limits text)) = .ok () s →
      s.Proper ∧ s.left = (Token.tokenize limits text).tokens) ∧
    Terminates program ∧ Terminates entry := by
  refine ⟨⟨progresses_factor, progresses_product, progresses_sumExpr, progresses_expression,
      progresses_statement, progresses_braced, progresses_definition⟩,
    fun n => ⟨descends_factor n, descends_statement n⟩,
    fun n start => ⟨?_, ?_, ?_, ?_, ?_, ?_, ?_, ?_⟩, fun s => advance_at_end,
    fun _ _ _ => proper_of_fetch (properScan_scanAll _ _ _),
    .of_ne_exhausted program_ne_exhausted grown_program,
    .of_ne_exhausted entry_ne_exhausted grown_entry⟩
  · exact descends_chain rfl _ (progresses_factor.ends n) start
  · exact descends_chain rfl _ (progresses_product.ends n) start
  · exact descends_commaList (progresses_expression.ends n)
  · exact descends_commaList (ends_expectName n)
  · exact descends_elements (progresses_expression.ends n)
  · exact descends_statements (progresses_statement.ends n)
  · exact descends_orWhens (ends_parenthesized n) ((progresses_braced true).ends n)
  · exact descends_definitions (progresses_definition.ends n)

end Kotoba.Syntax
