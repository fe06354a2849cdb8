import Kotoba.Proofs.Syntax.Blind

/-! Which entries are parsed. An entry is a definition, a list of statements, or an expression that
a semicolon may follow. Which of these is tried is settled by the first token or the first two, and
for some entries by too few: statements that begin with a call are taken for an expression, and an
expression that begins with an input, or with a read from a file, is taken for statements. All other
entries are parsed, as the trees that the productions of their forms yield. -/
namespace Kotoba.Syntax

open Token (Kind Limits)
open Kotoba.Syntax.Parser

variable {α β γ : Type}

/-- The production yields `a` and the end of input comes next. -/
def Covers (x : Parser α) (s : State) (a : α) : Prop :=
  ∃ s', x s = .ok a s' ∧ s'.current.kind = .endOfInput

/-- The forms of an entry, for the tokens from a state on. -/
inductive Form (fuel : Nat) (s : State) : Node → Prop
  | definition {f : FuncDef} (whole : Covers (definition fuel) s f) : Form fuel s (.function f)
  | statements {b : Body} (whole : Covers (plainBody fuel) s b) (nonempty : b.statements ≠ []) :
    Form fuel s (.body b)
  | expression {e : Expr} (whole : Covers (expression fuel <* skipSemicolon) s e) :
    Form fuel s (.expr e)

/-- The text is an entry of one of the forms, from its first token to its end. -/
def IsForm (limits : Limits) (text : Bytes) (form : Node) : Prop :=
  let scan := Token.tokenize limits text
  ∃ s, advance (.ofScan scan) = .ok () s ∧ Form (scan.tokens.length + 2) s form

/-- The kinds of the tokens of a text. -/
def kindsOf (limits : Limits) (text : Bytes) : List Kind :=
  (Token.tokenize limits text).tokens.map Token.kind

/-- The forms that are not tried, for an entry with tokens of the given kinds. -/
def overlooked : Node → List Kind → Bool
  | .body _, ks => ks.take 2 == [.identifier, .mark .openParen]
  | .expr _, ks => first ks ∈ [.mark .input, .mark .readFile, .mark .readLine]
  | _, _ => false

/-- The entry is parsed as a tree that is `tree` without its spans. -/
def Gives (x : Parser (Option Node)) (s : State) (tree : Node) : Prop :=
  ∃ node s', x s = .ok (some node) s' ∧ node.bare = tree

/-- The production comes to the end with what makes such a tree. -/
def Makes (build : α → Node) (x : Parser α) (s : State) (tree : Node) : Prop :=
  ∃ a, Covers x s a ∧ (build a).bare = tree

section Runs

variable {x y : Parser α} {f : α → Parser β} {s t s₁ : State} {a : α} {tree : Node}

theorem bind_apply_congr (h : x s = y t) (f : α → Parser β) : (x >>= f) s = (y >>= f) t := by
  rw [Step.bind_apply, Step.bind_apply, h]

theorem covers_bind {b : β} :
    Covers (x >>= f) s b ↔ ∃ a s₁, x s = .ok a s₁ ∧ Covers (f a) s₁ b := by
  constructor
  · rintro ⟨s', hrun, hend⟩
    obtain ⟨a, s₁, hx, hf⟩ := Step.bind_eq_ok hrun
    exact ⟨a, s₁, hx, s', hf, hend⟩
  · rintro ⟨a, s₁, hx, s', hf, hend⟩
    exact ⟨s', by rw [Step.bind_apply, hx]; exact hf, hend⟩

theorem gives_bind {f : α → Parser (Option Node)} :
    Gives (x >>= f) s tree ↔ ∃ a s₁, x s = .ok a s₁ ∧ Gives (f a) s₁ tree := by
  constructor
  · rintro ⟨node, s', hrun, hnode⟩
    obtain ⟨a, s₁, hx, hf⟩ := Step.bind_eq_ok hrun
    exact ⟨a, s₁, hx, node, s', hf, hnode⟩
  · rintro ⟨a, s₁, hx, node, s', hf, hnode⟩
    exact ⟨node, s', by rw [Step.bind_apply, hx]; exact hf, hnode⟩

theorem covers_seqLeft {tail : Parser Unit} :
    Covers (x <* tail) s a ↔ ∃ s₁, x s = .ok a s₁ ∧ Covers tail s₁ () := by
  rw [seqLeft_eq_bind, covers_bind]
  constructor
  · rintro ⟨b, s₁, hx, hrest⟩
    obtain ⟨_, s₂, htail, s₃, hpure, hend⟩ := covers_bind.mp hrest
    cases hpure
    exact ⟨s₁, hx, s₂, htail, hend⟩
  · rintro ⟨s₁, hx, s₂, htail, hend⟩
    exact ⟨a, s₁, hx, covers_bind.mpr ⟨(), s₂, htail, s₂, rfl, hend⟩⟩

/-- Productions that agree come to the end together. -/
theorem Agrees.covers {view : α → γ} (h : Agrees view (x s) (y t)) (ha : Covers x s a) :
    ∃ b, Covers y t b ∧ view b = view a := by
  obtain ⟨s', hx, hend⟩ := ha
  rw [hx] at h
  generalize hy : y t = o at h
  cases h with
  | ok value state => exact ⟨_, ⟨_, hy, state.kind ▸ hend⟩, value.symm⟩

theorem Agrees.gives {x y : Parser (Option Node)}
    (h : Agrees (Option.map Node.bare) (x s) (y t)) (hx : Gives x s tree) : Gives y t tree := by
  obtain ⟨node, s', hx, rfl⟩ := hx
  rw [hx] at h
  generalize hy : y t = o at h
  cases h with
  | @ok _ b _ t' value _ =>
    obtain ⟨node', rfl, hnode⟩ := Option.map_eq_some_iff.mp value.symm
    exact ⟨node', t', hy, hnode⟩

theorem gives_same {x : Parser (Option Node)} (hx : Blind (Option.map Node.bare) x x)
    (hst : Same s t) : Gives x s tree ↔ Gives x t tree :=
  ⟨(hx s t hst).gives, (hx t s hst.symm).gives⟩

end Runs

section Conclusion

variable {x : Parser α} {s : State} {tree : Node}

/-- A production concludes an entry if the end of input comes next, after what may follow it. -/
theorem gives_conclude {build : α → Node} {t : Parser Unit}
    (h : ∀ a, conclude (build a) = t >>= fun _ => at? .endOfInput >>= fun ended =>
      if ended then pure (some (build a)) else unexpected ["end of input"]) :
    Gives (build <$> x >>= conclude) s tree ↔ Makes build (x <* t) s tree := by
  -- at the end of input the tree is what was parsed
  have hlast : ∀ a s₁, Gives (at? .endOfInput >>= fun ended =>
      if ended then pure (some (build a)) else unexpected ["end of input"]) s₁ tree ↔
      s₁.current.kind = .endOfInput ∧ (build a).bare = tree := by
    intro a s₁
    rw [Gives, Step.bind_apply, at?, Step.gets]
    by_cases hend : s₁.current.kind = .endOfInput
    · simp [hend]
    · simp [hend, unexpected]
  simp only [bind_map_left, gives_bind, Makes, covers_seqLeft, h, hlast]
  constructor
  · rintro ⟨a, s₁, hx, _, s₂, htail, hend, hnode⟩
    exact ⟨a, ⟨s₁, hx, s₂, htail, hend⟩, hnode⟩
  · rintro ⟨a, ⟨s₁, hx, s₂, htail, hend⟩, hnode⟩
    exact ⟨a, s₁, hx, (), s₂, htail, hend, hnode⟩

theorem gives_function {x : Parser FuncDef} :
    Gives (.function <$> x >>= conclude) s tree ↔ Makes .function x s tree := by
  rw [gives_conclude (t := pure ()) fun _ => rfl]
  simp

theorem gives_body {x : Parser Body} :
    Gives (.body <$> x >>= conclude) s tree ↔ Makes .body x s tree := by
  rw [gives_conclude (t := pure ()) fun _ => rfl]
  simp

theorem gives_expr {x : Parser Expr} :
    Gives (.expr <$> x >>= conclude) s tree ↔ Makes .expr (x <* skipSemicolon) s tree :=
  gives_conclude fun _ => rfl

end Conclusion

section Beginnings

variable {s : State}

theorem kind_of_definition {fuel : Nat} {f : FuncDef} (h : Covers (definition fuel) s f) :
    s.current.kind = .mark .define := by
  obtain ⟨s', hrun, -⟩ := h
  rw [definition_eq] at hrun
  obtain ⟨_, s₁, henter, hrun⟩ := Step.bind_eq_ok hrun
  obtain ⟨_, s₂, hhere, hrun⟩ := Step.bind_eq_ok hrun
  obtain ⟨_, s₃, hexpect, -⟩ := Step.bind_eq_ok hrun
  cases henter
  cases hhere
  rw [expect, Step.bind_apply, at?, Step.gets] at hexpect
  dsimp only at hexpect
  split at hexpect
  · next hk => simpa using hk
  · cases hexpect

/-- An expression begins with a factor. -/
theorem expression_eq (fuel : Nat) : expression fuel = (do
    let start ← here
    let first ← factor fuel
    comparisonAfter (factor fuel) fuel first start) := by
  funext s
  simp only [expression, comparison, sum, product, comparisonAfter, bind_assoc]
  rfl

theorem startsExpression_of_expression {fuel : Nat} {e : Expr} {s' : State}
    (h : expression fuel s = .ok e s') : startsExpression s.current.kind := by
  rw [expression_eq] at h
  obtain ⟨_, s₁, hhere, h⟩ := Step.bind_eq_ok h
  obtain ⟨_, s₂, hfactor, -⟩ := Step.bind_eq_ok h
  cases hhere
  cases fuel with
  | zero => cases hfactor
  | succ fuel =>
    rw [factor, factorWith_eq, Step.bind_apply, current, Step.gets] at hfactor
    dsimp only at hfactor
    generalize s.current.kind = k at hfactor ⊢
    cases k with
    | endOfInput => cases hfactor
    | mark m => cases m <;> first | rfl | cases hfactor
    | _ => rfl

theorem plainBody_eq (fuel : Nat) : plainBody fuel = (do
    enter "<Body>"
    let start ← here
    let front ← statements (statement fuel) fuel
    pure ⟨front, ← finish start⟩) := by
  unfold plainBody body
  simp

/-- A list of statements that comes to the end has one, unless there is nothing at all. -/
theorem statements_of_plainBody {n : Nat} {b : Body} (h : Covers (plainBody (n + 1)) s b) :
    startsStatement s.current.kind ∧ b.statements ≠ [] ∨ b.statements = [] ∧ s.kinds = [] := by
  obtain ⟨s', hrun, hend⟩ := h
  rw [plainBody_eq] at hrun
  obtain ⟨_, s₁, henter, hrun⟩ := Step.bind_eq_ok hrun
  obtain ⟨_, s₂, hhere, hrun⟩ := Step.bind_eq_ok hrun
  obtain ⟨front, s₃, hfront, hspan⟩ := Step.bind_eq_ok hrun
  cases henter
  cases hhere
  cases hspan
  rw [statements, Step.bind_apply, kind, Step.gets] at hfront
  dsimp only at hfront
  split at hfront
  · next hstarts =>
    obtain ⟨first, s₄, -, hfront⟩ := Step.bind_eq_ok hfront
    obtain ⟨_, s₅, -, hfront⟩ := Step.bind_eq_ok hfront
    obtain ⟨rest, s₆, -, hall⟩ := Step.bind_eq_ok hfront
    cases hall
    exact .inl ⟨hstarts, List.cons_ne_nil _ _⟩
  · cases hfront
    exact .inr ⟨rfl, (State.Proper.kinds_eq_nil s).mpr hend⟩

/-- No form is empty. -/
theorem Form.kinds_ne_nil {n : Nat} {form : Node} (h : Form (n + 1) s form) : s.kinds ≠ [] := by
  rw [Ne, State.Proper.kinds_eq_nil]
  intro hend
  cases h with
  | definition whole => exact nomatch hend.symm.trans (kind_of_definition whole)
  | statements whole hsome =>
    obtain ⟨hstarts, -⟩ | ⟨hnone, -⟩ := statements_of_plainBody whole
    · rw [hend] at hstarts
      cases hstarts
    · exact hsome hnone
  | expression whole =>
    obtain ⟨s₁, he, -⟩ := covers_seqLeft.mp whole
    have hstarts := startsExpression_of_expression he
    rw [hend] at hstarts
    cases hstarts

end Beginnings

/-- Statements with an optional semicolon after the first. -/
def bodyFrom (x : Parser Stmt) (others : Parser (List Stmt)) : Parser Body := do
  let start ← here
  let first ← x
  skipSemicolon
  let rest ← others
  pure ⟨first :: rest, ← finish start⟩

/-- The update of a slot, as a statement. -/
def slotUpdate (fuel : Nat) : Parser Stmt := do
  let start ← here
  let target ← slot (sumExpr fuel)
  updateOf (expression fuel) target start

/-- An expression that begins with an element of an array. -/
def slotExpr (fuel : Nat) : Parser Expr := do
  let start ← here
  let target ← slot (sumExpr fuel)
  comparisonAfter (factor fuel) fuel (.element target.1 target.2.1 target.2.2) start

theorem blind_bodyFrom {x y : Parser Stmt} {others others' : Parser (List Stmt)}
    (hx : Blind Stmt.bare x y) (hothers : Blind Stmt.bareAll others others') :
    Blind Body.bare (bodyFrom x others) (bodyFrom y others') :=
  .here fun _ _ => hx.bind fun _ _ hfirst => blind_skipSemicolon.bind fun _ _ _ =>
    hothers.bind fun _ _ hrest => .spanned fun _ _ => by
      simp [Body.bare, Stmt.bareAll, hfirst, hrest]

theorem blind_slotUpdate (fuel : Nat) : Blind Stmt.bare (slotUpdate fuel) (slotUpdate fuel) :=
  .here fun p q => (blind_slot (blind_sumExpr fuel)).bind fun _ _ h =>
    blind_updateOf (blind_expression fuel) h p q

/-- A list of statements and the statements in it. -/
theorem blind_statements_plainBody (fuel : Nat) :
    Blind Stmt.bareAll (statements (statement fuel) fuel) (Body.statements <$> plainBody fuel) := by
  rw [← bind_pure (statements (statement fuel) fuel), plainBody_eq, map_bind]
  refine .quiet_right (quiet_enter _) fun _ => ?_
  rw [map_bind]
  refine .quiet_right quiet_here fun _ => ?_
  rw [map_bind]
  refine (blind_statements (blind_statement fuel) fuel).bind fun _ _ h => ?_
  rw [map_bind]
  exact .quiet_right (quiet_finish _) fun _ => .pure h

section Names

variable {s : State} {n : Nat} {ks : List Kind} {tree : Node}

/-- A list of statements of which the first begins with a name. -/
theorem plainBody_name (hk : s.current.kind = .identifier) :
    ∃ s₁, Alike s s₁ ∧ plainBody (n + 1) s =
      bodyFrom (nameStatement (expression n) (sumExpr n) n) (statements (statement (n + 1)) n)
        s₁ := by
  obtain ⟨_, s₁, hs₁, halike₁⟩ := (quiet_enter "<Body>").alike s
  obtain ⟨_, s₂, hs₂, halike₂⟩ := (quiet_enter "<Statement>").alike s₁
  have hk₁ : s₁.current.kind = .identifier := by rw [halike₁.current, hk]
  have hk₂ : s₂.current.kind = .identifier := by rw [halike₂.current, hk₁]
  have hstatement : statement (n + 1) s₁ = nameStatement (expression n) (sumExpr n) n s₂ := by
    rw [statement, statementWith, Step.bind_apply, hs₂]
    dsimp only
    rw [Step.bind_apply, kind, Step.gets, hk₂]
  have hstatements : statements (statement (n + 1)) (n + 1) s₁ = (do
      let first ← nameStatement (expression n) (sumExpr n) n
      skipSemicolon
      let rest ← statements (statement (n + 1)) n
      pure (first :: rest) : Parser (List Stmt)) s₂ := by
    rw [statements, Step.bind_apply, kind, Step.gets, hk₁]
    exact bind_apply_congr hstatement _
  refine ⟨s₂, halike₁.trans halike₂, ?_⟩
  have hstart : here s₂ = .ok s₁.current.start s₂ := by rw [here, Step.gets, halike₂.current]
  rw [plainBody_eq, bodyFrom, Step.bind_apply, hs₁, Step.bind_apply, hstart]
  refine (bind_apply_congr hstatements _).trans ?_
  simp only [bind_assoc, pure_bind]

/-- The factor that a name begins, by what comes next. -/
theorem factor_name {k : Kind} {s₁ : State} (hk : s.current.kind = .identifier)
    (hpeek : peek s = .ok k s₁) : factor (n + 1) s = (match k with
      | .mark .openParen => call (expression n) n
      | .mark .openBracket => do
        let target ← slot (sumExpr n)
        pure (.element target.1 target.2.1 target.2.2)
      | _ => leaf fun span => .name ⟨nameOf s.current.lexeme, span⟩) s₁ := by
  rw [factor, factorWith_eq, Step.bind_apply, current, Step.gets]
  dsimp only
  rw [hk, factorAt, reference, Step.bind_apply, hpeek]
  rfl

/-- The tokens that make a statement of the name before them. -/
def makesStatement : List Kind :=
  [.mark .assign, .mark .increment, .mark .decrement, .mark .arrow]

/-- An expression ends before them. -/
theorem comparisonAfter_stop {x : Parser Expr} {e : Expr} {start : Position}
    (h : s.current.kind ∈ makesStatement) : comparisonAfter x (n + 1) e start s = .ok e s := by
  have hops : ∀ k ∈ makesStatement, multiplicativeOp? k = none ∧ additiveOp? k = none ∧
      relationalOp? k = none := by decide
  obtain ⟨hmul, hadd, hrel⟩ := hops _ h
  simp only [comparisonAfter, productFrom, sumFrom, chain, comparisonFrom, Step.bind_apply, kind,
    Step.gets, hmul, hadd, hrel, Step.pure_apply]

/-- An expression does not go past them. -/
theorem not_covers_of_stop {x : Parser Expr} {e : Expr} {s₁ : State} (hx : x s = .ok e s₁)
    (h : s₁.current.kind ∈ makesStatement) (e' : Expr) : ¬ Covers (x <* skipSemicolon) s e' := by
  have hother : ∀ k ∈ makesStatement, (k == .mark .semicolon) = false ∧ k ≠ .endOfInput := by decide
  obtain ⟨hsemicolon, hend⟩ := hother _ h
  intro hcovers
  obtain ⟨s₂, hx', s₃, hskip, hlast⟩ := covers_seqLeft.mp hcovers
  rw [hx] at hx'
  cases hx'
  rw [skipSemicolon, Step.bind_apply, at?, Step.gets, hsemicolon] at hskip
  cases hskip
  exact hend hlast

section Next

variable {s₁ : State} (hs : s.Proper) (hc : s.clean) (hk : s.kinds = .identifier :: ks)
include hk

theorem kind_name : s.current.kind = .identifier := by
  rw [← State.Proper.first_kinds, hk]
  rfl

include hs hc

/-- A name before them is no expression that comes to the end. -/
theorem not_covers_name (h : first ks ∈ makesStatement) (e : Expr) :
    ¬ Covers (expression (n + 1) <* skipSemicolon) s e := by
  obtain ⟨s₁, hpeek, halike⟩ := peek_ok hs hk (.inr hc)
  have hleaf : factor (n + 1) s = leaf (fun span => .name ⟨nameOf s.current.lexeme, span⟩) s₁ := by
    rw [factor_name (kind_name hk) hpeek]
    simp only [makesStatement, List.mem_cons, List.not_mem_nil, or_false] at h
    obtain h | h | h | h := h <;> rw [h]
  obtain ⟨s₂, hadvance, -, hks, -⟩ := advance_ok (halike.proper hs) (halike.kinds.trans hk)
    (.inr (by rw [halike.clean]; exact hc))
  have hkind : s₂.current.kind ∈ makesStatement := by
    rw [← State.Proper.first_kinds, hks]
    exact h
  have hfactor : ∃ e, factor (n + 1) s = .ok e s₂ := by
    rw [hleaf, leaf, Step.bind_apply, here, Step.gets]
    dsimp only
    rw [Step.bind_apply, hadvance]
    exact ⟨_, rfl⟩
  obtain ⟨e', hfactor⟩ := hfactor
  have hexpression : expression (n + 1) s = .ok e' s₂ := by
    rw [expression_eq, Step.bind_apply, here, Step.gets]
    dsimp only
    rw [Step.bind_apply, hfactor]
    exact comparisonAfter_stop hkind
  exact not_covers_of_stop hexpression hkind e

/-- A name is no statement by itself. -/
theorem not_covers_lost (h : first ks ∉ makesStatement)
    (hparen : first ks ≠ .mark .openParen) (hbracket : first ks ≠ .mark .openBracket) (b : Body) :
    ¬ Covers (plainBody (n + 1)) s b := by
  rintro ⟨s', hrun, -⟩
  obtain ⟨s₁, halike, hname⟩ := plainBody_name (n := n) (kind_name hk)
  obtain ⟨s₂, hpeek, -⟩ := peek_ok (halike.proper hs) (halike.kinds.trans hk)
    (.inr (by rw [halike.clean]; exact hc))
  rw [hname, bodyFrom, Step.bind_apply, here, Step.gets] at hrun
  obtain ⟨a, s₃, hstatement, -⟩ := Step.bind_eq_ok hrun
  rw [nameStatement, Step.bind_apply, hpeek] at hstatement
  generalize first ks = k at h hparen hbracket hstatement
  have hlost : ∃ wanted, (advance >>= fun _ => unexpected (α := Stmt) wanted) s₂ = .ok a s₃ := by
    cases k with
    | mark m =>
      cases m <;> first | exact ⟨_, hstatement⟩ | simp [makesStatement] at h hparen hbracket
    | _ => exact ⟨_, hstatement⟩
  obtain ⟨wanted, hlost⟩ := hlost
  obtain ⟨_, s₄, -, hfail⟩ := Step.bind_eq_ok hlost
  cases hfail

variable (hlen : s.kinds.length < n + 1)

omit hc in
include hlen in
/-- An element of an array begins an expression in the same way, with more fuel or less. -/
theorem expression_slot (hpeek : peek s = .ok (.mark .openBracket) s₁) (halike : Alike s s₁) :
    expression (n + 1) s = slotExpr (n + 1) s₁ := by
  have hle : ∀ _ : Unit, n + 1 ≤ n + 1 := fun _ => Nat.le_refl _
  have hends := Ends.of_reads (takes_expression (.inl rfl) hle).reads
  have hless : expression (n + 1) s = (do
      let start ← here
      let target ← slot (sumExpr n)
      comparisonAfter (factor (n + 1)) (n + 1) (.element target.1 target.2.1 target.2.2) start :
        Parser Expr) s₁ := by
    rw [expression_eq, Step.bind_apply, Step.bind_apply, here, Step.gets, Step.gets, halike.current]
    refine (bind_apply_congr (factor_name (kind_name hk) hpeek) _).trans ?_
    simp only [bind_assoc, pure_bind]
  rw [hless]
  refine Grown.eq (.after fun _ => (grown_slot (grown_sumExpr n)).before _) ?_
  rw [← hless]
  exact hends.halts s hs hlen

omit hc in
include hlen in
/-- Statements of which the first is an update of a slot, with more fuel or less. -/
theorem plainBody_slot (hnext : first ks = .mark .openBracket) :
    ∃ s₂, Alike s s₂ ∧ plainBody (n + 1) s =
      bodyFrom (slotUpdate (n + 1)) (statements (statement (n + 1)) (n + 1)) s₂ := by
  have hmore : ks ≠ [] := by
    rintro rfl
    cases hnext
  have hle : ∀ _ : Unit, n + 1 ≤ n + 1 := fun _ => Nat.le_refl _
  have hends := Ends.of_reads (takes_plainBody hle).reads
  obtain ⟨s₁, halike₁, hname⟩ := plainBody_name (n := n) (kind_name hk)
  obtain ⟨s₂, hpeek, halike₂⟩ := peek_ok (halike₁.proper hs) (halike₁.kinds.trans hk) (.inl hmore)
  have hless : plainBody (n + 1) s =
      bodyFrom (slotUpdate n) (statements (statement (n + 1)) n) s₂ := by
    have hstatement : nameStatement (expression n) (sumExpr n) n s₁ = slotUpdate n s₂ := by
      rw [nameStatement, Step.bind_apply, hpeek, hnext]
      rfl
    rw [hname, bodyFrom, bodyFrom, Step.bind_apply, Step.bind_apply, here, Step.gets, Step.gets,
      halike₂.current]
    exact bind_apply_congr hstatement _
  have hupdate : Grown (slotUpdate n) (slotUpdate (n + 1)) :=
    .after fun _ => (grown_slot (grown_sumExpr n)).bind fun _ => .after fun _ =>
      (grown_expression n).before _
  refine ⟨s₂, halike₁.trans halike₂, ?_⟩
  rw [hless]
  refine Grown.eq (.after fun _ => hupdate.bind fun _ => .after fun _ =>
    (grown_statements (.refl _) n).before _) ?_
  rw [← hless]
  exact hends.halts s hs hlen

include hlen in
theorem agrees_plainBody_slot (hnext : first ks = .mark .openBracket) {t : State}
    (halike : Alike s t) :
    Agrees Body.bare (plainBody (n + 1) s)
      (bodyFrom (slotUpdate (n + 1)) (Body.statements <$> plainBody (n + 1)) t) := by
  obtain ⟨s₂, halike₂, hbody⟩ := plainBody_slot hs hk hlen hnext
  rw [hbody]
  exact blind_bodyFrom (blind_slotUpdate _) (blind_statements_plainBody _) s₂ t
    ((Same.refl hc).alike halike₂ halike)

end Next

/-- After a slot come statements if the slot is assigned to, and otherwise an expression goes on. -/
theorem gives_afterSlot {value : Parser Expr} {target : Ident × Expr × Span} {start : Position}
    {f : Stmt → Parser Body} {e : Expr} :
    Gives (at? Mark.assign >>= fun assigned =>
      (if assigned then .body <$> (updateOf value target start >>= f)
        else .expr <$> comparisonAfter (factor (n + 1)) (n + 1) e start) >>= conclude) s tree ↔
    Makes .body (updateOf value target start >>= f) s tree ∨
      Makes .expr (comparisonAfter (factor (n + 1)) (n + 1) e start <* skipSemicolon) s tree := by
  have hat : at? Mark.assign s = .ok (s.current.kind == .mark .assign) s := rfl
  by_cases hassign : s.current.kind = .mark .assign
  · have hnone : ¬ Makes .expr
        (comparisonAfter (factor (n + 1)) (n + 1) e start <* skipSemicolon) s tree := by
      rintro ⟨v, hv, -⟩
      have hkind : s.current.kind ∈ makesStatement := by rw [hassign]; decide
      exact not_covers_of_stop (comparisonAfter_stop hkind) hkind v hv
    rw [or_iff_left hnone, ← gives_body, Gives, Gives, Step.bind_apply, hat, hassign]
    rfl
  · have hnone : ¬ Makes .body (updateOf value target start >>= f) s tree := by
      rintro ⟨b, ⟨s', hrun, -⟩, -⟩
      obtain ⟨_, s₁, hupdate, -⟩ := Step.bind_eq_ok hrun
      obtain ⟨_, s₂, hexpect, -⟩ := Step.bind_eq_ok hupdate
      rw [expect, Step.bind_apply, hat, beq_eq_false_iff_ne.mpr hassign] at hexpect
      cases hexpect
    rw [or_iff_right hnone, ← gives_expr, Gives, Gives, Step.bind_apply, hat,
      beq_eq_false_iff_ne.mpr hassign]
    rfl

/-- An entry that begins with a slot. -/
theorem gives_slotEntry : Gives (slotEntry (n + 1) >>= conclude) s tree ↔
    Makes .body (bodyFrom (slotUpdate (n + 1)) (Body.statements <$> plainBody (n + 1))) s tree ∨
      Makes .expr (slotExpr (n + 1) <* skipSemicolon) s tree := by
  have hentry : slotEntry (n + 1) >>= conclude = (do
      let start ← here
      let target ← slot (sumExpr (n + 1))
      let assigned ← at? Mark.assign
      (if assigned then .body <$> (updateOf (expression (n + 1)) target start >>= fun first => do
          skipSemicolon
          let rest ← Body.statements <$> plainBody (n + 1)
          pure ⟨first :: rest, ← finish start⟩)
        else .expr <$> comparisonAfter (factor (n + 1)) (n + 1)
          (.element target.1 target.2.1 target.2.2) start) >>= conclude) := by
    unfold slotEntry
    simp only [bind_assoc]
    refine bind_congr fun _ => bind_congr fun _ => bind_congr fun assigned => ?_
    cases assigned <;> simp
  have hbody : bodyFrom (slotUpdate (n + 1)) (Body.statements <$> plainBody (n + 1)) = (do
      let start ← here
      let target ← slot (sumExpr (n + 1))
      updateOf (expression (n + 1)) target start >>= fun first => do
        skipSemicolon
        let rest ← Body.statements <$> plainBody (n + 1)
        pure ⟨first :: rest, ← finish start⟩) := by
    funext s
    simp only [bodyFrom, slotUpdate, bind_assoc]
    rfl
  have hexpr : slotExpr (n + 1) <* skipSemicolon = (do
      let start ← here
      let target ← slot (sumExpr (n + 1))
      comparisonAfter (factor (n + 1)) (n + 1) (.element target.1 target.2.1 target.2.2) start <*
        skipSemicolon) := by
    simp only [slotExpr, seqLeft_eq_bind, bind_assoc]
  rw [hentry, hbody, hexpr]
  constructor
  · intro hgives
    obtain ⟨start, s₁, hhere, hgives⟩ := gives_bind.mp hgives
    obtain ⟨target, s₂, hslot, hgives⟩ := gives_bind.mp hgives
    obtain ⟨b, hb, htree⟩ | ⟨e, he, htree⟩ := gives_afterSlot.mp hgives
    · exact .inl ⟨b, covers_bind.mpr ⟨_, _, hhere, covers_bind.mpr ⟨_, _, hslot, hb⟩⟩, htree⟩
    · exact .inr ⟨e, covers_bind.mpr ⟨_, _, hhere, covers_bind.mpr ⟨_, _, hslot, he⟩⟩, htree⟩
  · rintro (⟨b, hb, htree⟩ | ⟨e, he, htree⟩)
    · obtain ⟨start, s₁, hhere, hb⟩ := covers_bind.mp hb
      obtain ⟨target, s₂, hslot, hb⟩ := covers_bind.mp hb
      exact gives_bind.mpr ⟨_, _, hhere, gives_bind.mpr ⟨_, _, hslot,
        gives_afterSlot.mpr (.inl ⟨b, hb, htree⟩)⟩⟩
    · obtain ⟨start, s₁, hhere, he⟩ := covers_bind.mp he
      obtain ⟨target, s₂, hslot, he⟩ := covers_bind.mp he
      exact gives_bind.mpr ⟨_, _, hhere, gives_bind.mpr ⟨_, _, hslot,
        gives_afterSlot.mpr (.inr ⟨e, he, htree⟩)⟩⟩

end Names

section Entries

variable {s : State} {n : Nat} {ks : List Kind} {tree : Node}

/-- The forms that are tried, by the first tokens. -/
theorem exists_form_iff (hne : s.kinds ≠ []) :
    (∃ form, Form (n + 1) s form ∧ form.bare = tree ∧ overlooked form s.kinds = false) ↔
      Makes .function (definition (n + 1)) s tree ∨
      (s.kinds.take 2 ≠ [.identifier, .mark .openParen] ∧
        Makes .body (plainBody (n + 1)) s tree) ∨
      (first s.kinds ∉ [.mark .input, .mark .readFile, .mark .readLine] ∧
        Makes .expr (expression (n + 1) <* skipSemicolon) s tree) := by
  constructor
  · rintro ⟨form, hform, htree, htried⟩
    cases hform with
    | definition hwhole => exact .inl ⟨_, hwhole, htree⟩
    | statements hwhole _ =>
      exact .inr (.inl ⟨by simpa [overlooked] using htried, _, hwhole, htree⟩)
    | expression hwhole =>
      exact .inr (.inr ⟨by simpa [overlooked] using htried, _, hwhole, htree⟩)
  · rintro (⟨f, hwhole, htree⟩ | ⟨htried, b, hwhole, htree⟩ | ⟨htried, e, hwhole, htree⟩)
    · exact ⟨_, .definition hwhole, htree, rfl⟩
    · have hsome := ((statements_of_plainBody hwhole).resolve_right fun h => hne h.2).2
      exact ⟨_, .statements hwhole hsome, htree, by simpa [overlooked] using htried⟩
    · exact ⟨_, .expression hwhole, htree, by simpa [overlooked] using htried⟩

section Names

variable (hs : s.Proper) (hc : s.clean) (hk : s.kinds = .identifier :: ks)
include hs hc hk

/-- After a name, what comes next decides. -/
theorem gives_next (n : Nat) (tree : Node) : ∃ s₁, peek s = .ok (first ks) s₁ ∧ Alike s s₁ ∧
    (Gives (nameEntry (n + 1) >>= conclude) s tree ↔ Gives ((match first ks with
      | .mark .assign | .mark .increment | .mark .decrement | .mark .arrow =>
        .body <$> plainBody (n + 1)
      | .mark .openBracket => slotEntry (n + 1)
      | _ => .expr <$> expression (n + 1)) >>= conclude) s₁ tree) := by
  obtain ⟨s₁, hpeek, halike⟩ := peek_ok hs hk (.inr hc)
  refine ⟨s₁, hpeek, halike, ?_⟩
  rw [nameEntry_eq, Gives, Step.bind_apply, hpeek]
  rfl

theorem gives_nameEntry_body (h : first ks ∈ makesStatement) :
    Gives (nameEntry (n + 1) >>= conclude) s tree ↔ Makes .body (plainBody (n + 1)) s tree := by
  obtain ⟨s₁, -, halike, hnext⟩ := gives_next hs hc hk n tree
  have hsame : Same s₁ s := (Same.refl hc).alike halike (.refl _)
  rw [hnext, ← gives_body,
    ← gives_same ((blind_bodyNode (n + 1)).bind fun _ _ h => blind_conclude h) hsame]
  simp only [makesStatement, List.mem_cons, List.not_mem_nil, or_false] at h
  obtain h | h | h | h := h <;> rw [h]

theorem gives_nameEntry_expr (h : first ks ∉ makesStatement)
    (hbracket : first ks ≠ .mark .openBracket) :
    Gives (nameEntry (n + 1) >>= conclude) s tree ↔
      Makes .expr (expression (n + 1) <* skipSemicolon) s tree := by
  obtain ⟨s₁, -, halike, hnext⟩ := gives_next hs hc hk n tree
  have hsame : Same s₁ s := (Same.refl hc).alike halike (.refl _)
  rw [hnext, ← gives_expr,
    ← gives_same ((blind_exprNode (n + 1)).bind fun _ _ h => blind_conclude h) hsame]
  generalize first ks = k at h hbracket
  cases k with
  | mark m => cases m <;> first | rfl | simp [makesStatement] at h hbracket
  | _ => rfl

theorem gives_nameEntry_slot (hlen : s.kinds.length < n + 1)
    (hbracket : first ks = .mark .openBracket) :
    Gives (nameEntry (n + 1) >>= conclude) s tree ↔
      Makes .body (plainBody (n + 1)) s tree ∨
        Makes .expr (expression (n + 1) <* skipSemicolon) s tree := by
  obtain ⟨s₁, hpeek, halike, hnext⟩ := gives_next hs hc hk n tree
  have hagrees := agrees_plainBody_slot hs hc hk hlen hbracket halike
  have hbody : Makes .body (plainBody (n + 1)) s tree ↔
      Makes .body (bodyFrom (slotUpdate (n + 1)) (Body.statements <$> plainBody (n + 1))) s₁
        tree := by
    constructor
    · rintro ⟨b, hb, rfl⟩
      obtain ⟨b', hb', hbare⟩ := hagrees.covers hb
      exact ⟨b', hb', by simp [Node.bare, hbare]⟩
    · rintro ⟨b, hb, rfl⟩
      obtain ⟨b', hb', hbare⟩ := hagrees.symm.covers hb
      exact ⟨b', hb', by simp [Node.bare, hbare]⟩
  have hexpr : Makes .expr (expression (n + 1) <* skipSemicolon) s tree ↔
      Makes .expr (slotExpr (n + 1) <* skipSemicolon) s₁ tree := by
    have hvalue := expression_slot hs hk hlen (hbracket ▸ hpeek) halike
    simp only [Makes, covers_seqLeft, hvalue]
  rw [hnext, hbody, hexpr, hbracket]
  exact gives_slotEntry

/-- An entry that begins with a name. -/
theorem gives_nameEntry (hlen : s.kinds.length < n + 1) :
    Gives (nameEntry (n + 1) >>= conclude) s tree ↔
      (first ks ≠ .mark .openParen ∧ Makes .body (plainBody (n + 1)) s tree) ∨
        Makes .expr (expression (n + 1) <* skipSemicolon) s tree := by
  by_cases hmakes : first ks ∈ makesStatement
  · have hparen : first ks ≠ .mark .openParen := by
      intro h
      rw [h] at hmakes
      revert hmakes
      decide
    have hnone : ¬ Makes .expr (expression (n + 1) <* skipSemicolon) s tree := by
      rintro ⟨e, he, -⟩
      exact not_covers_name hs hc hk hmakes e he
    rw [gives_nameEntry_body hs hc hk hmakes, or_iff_left hnone, and_iff_right hparen]
  · by_cases hbracket : first ks = .mark .openBracket
    · have hparen : first ks ≠ .mark .openParen := by
        rw [hbracket]
        decide
      rw [gives_nameEntry_slot hs hc hk hlen hbracket, and_iff_right hparen]
    · have hnone : ¬ (first ks ≠ .mark .openParen ∧ Makes .body (plainBody (n + 1)) s tree) := by
        rintro ⟨hparen, b, hb, -⟩
        exact not_covers_lost hs hc hk hmakes hparen hbracket b hb
      rw [gives_nameEntry_expr hs hc hk hmakes hbracket, or_iff_right hnone]

end Names

/-- The tokens that begin both a statement and an expression, names apart. -/
theorem mem_of_starts {k : Kind} (hstmt : startsStatement k) (hexpr : startsExpression k)
    (hname : k ≠ .identifier) : k ∈ [.mark .input, .mark .readFile, .mark .readLine] := by
  cases k with
  | mark m => cases m <;> simp [startsStatement, startsExpression] at hstmt hexpr ⊢
  | _ => simp_all [startsStatement]

section Others

variable (hne : s.kinds ≠ [])

theorem Makes.define (h : Makes .function (definition (n + 1)) s tree) :
    s.current.kind = .mark .define := by
  obtain ⟨f, hf, -⟩ := h
  exact kind_of_definition hf

include hne in
theorem Makes.startsStatement (h : Makes .body (plainBody (n + 1)) s tree) :
    startsStatement s.current.kind := by
  obtain ⟨b, hb, -⟩ := h
  exact ((statements_of_plainBody hb).resolve_right fun h => hne h.2).1

theorem Makes.startsExpression (h : Makes .expr (expression (n + 1) <* skipSemicolon) s tree) :
    startsExpression s.current.kind := by
  obtain ⟨e, he, -⟩ := h
  obtain ⟨s₁, he, -⟩ := covers_seqLeft.mp he
  exact startsExpression_of_expression he

include hne in
/-- An entry that begins with a token that is no name. -/
theorem gives_entryNode_other (hname : s.current.kind ≠ .identifier) :
    Gives (entryNode (n + 1) >>= conclude) s tree ↔
      Makes .function (definition (n + 1)) s tree ∨
      Makes .body (plainBody (n + 1)) s tree ∨
      (s.current.kind ∉ [.mark .input, .mark .readFile, .mark .readLine] ∧
        Makes .expr (expression (n + 1) <* skipSemicolon) s tree) := by
  by_cases hdefine : s.current.kind = .mark .define
  · have hnobody : ¬ Makes .body (plainBody (n + 1)) s tree := fun h =>
      nomatch hdefine ▸ h.startsStatement hne
    have hnoexpr : ¬ Makes .expr (expression (n + 1) <* skipSemicolon) s tree := fun h =>
      nomatch hdefine ▸ h.startsExpression
    simp only [hnobody, hnoexpr, and_false, or_false]
    rw [← gives_function, Gives, Gives, entryNode_eq, Step.bind_apply, kind, Step.gets, hdefine]
  have hnofunction : ¬ Makes .function (definition (n + 1)) s tree := fun h => hdefine h.define
  have hchoice : (entryNode (n + 1) >>= conclude) s =
      ((if startsStatement s.current.kind then .body <$> plainBody (n + 1)
        else .expr <$> expression (n + 1)) >>= conclude) s := by
    rw [entryNode_eq, Step.bind_apply, kind, Step.gets]
    dsimp only
    generalize s.current.kind = k at hdefine hname
    cases k with
    | identifier => exact absurd rfl hname
    | mark m => cases m <;> first | rfl | exact absurd rfl hdefine
    | _ => rfl
  rw [or_iff_right hnofunction]
  by_cases hstarts : startsStatement s.current.kind
  · have hnoexpr : ¬ (s.current.kind ∉ [.mark .input, .mark .readFile, .mark .readLine] ∧
        Makes .expr (expression (n + 1) <* skipSemicolon) s tree) := fun h =>
      h.1 (mem_of_starts hstarts h.2.startsExpression hname)
    rw [or_iff_left hnoexpr, ← gives_body, Gives, Gives, hchoice, if_pos hstarts]
  · have hnobody : ¬ Makes .body (plainBody (n + 1)) s tree := fun h =>
      hstarts (h.startsStatement hne)
    have hread : s.current.kind ∉ [.mark .input, .mark .readFile, .mark .readLine] := by
      intro h
      have hall : ∀ k ∈ [.mark .input, .mark .readFile, .mark .readLine], startsStatement k := by
        decide
      exact hstarts (hall _ h)
    rw [or_iff_right hnobody, and_iff_right hread, ← gives_expr, Gives, Gives, hchoice,
      if_neg hstarts]

end Others

/-- An entry is parsed if it has one of the forms, and this form is tried. -/
theorem gives_entryNode (hs : s.Proper) (hc : s.clean) (hne : s.kinds ≠ [])
    (hlen : s.kinds.length < n + 1) :
    Gives (entryNode (n + 1) >>= conclude) s tree ↔
      ∃ form, Form (n + 1) s form ∧ form.bare = tree ∧ overlooked form s.kinds = false := by
  have hfirst := State.Proper.first_kinds s
  rw [exists_form_iff hne, hfirst]
  by_cases hname : s.current.kind = .identifier
  · obtain ⟨k, ks, hk⟩ := List.exists_cons_of_ne_nil hne
    obtain rfl : k = .identifier := by rw [← hname, ← hfirst, hk]; rfl
    have hcall : s.kinds.take 2 ≠ [.identifier, .mark .openParen] ↔
        first ks ≠ .mark .openParen := by
      rw [hk]
      cases ks <;> simp [first]
    have hread : Kind.identifier ∉ [.mark .input, .mark .readFile, .mark .readLine] := by decide
    have hnofunction : ¬ Makes .function (definition (n + 1)) s tree := fun h =>
      nomatch hname.symm.trans h.define
    rw [hname, hcall, and_iff_right hread, or_iff_right hnofunction,
      ← gives_nameEntry hs hc hk hlen, entryNode_eq, Gives, Step.bind_apply, kind, Step.gets, hname]
    rfl
  · have hcall : s.kinds.take 2 ≠ [.identifier, .mark .openParen] := by
      intro h
      rw [← hfirst] at hname
      generalize s.kinds = all at h hname
      cases all <;> simp_all [first]
    rw [and_iff_right hcall, gives_entryNode_other hne hname]

end Entries

/-- Whether a production comes to the end of input. -/
def covers (x : Parser α) (s : State) : Bool :=
  match x s with
  | .ok _ s' => s'.current.kind == .endOfInput
  | .error _ _ | .exhausted => false

theorem covers_iff {x : Parser α} {s : State} : covers x s ↔ ∃ a, Covers x s a := by
  unfold covers Covers
  cases x s with
  | ok a s' => simp
  | error d s' => simp
  | exhausted => simp

/-- Whether the tokens from a state on have one of the forms of an entry. -/
def isForm (fuel : Nat) (s : State) : Bool :=
  covers (definition fuel) s || startsStatement s.current.kind && covers (plainBody fuel) s ||
    covers (expression fuel <* skipSemicolon) s

theorem isForm_iff {n : Nat} {s : State} : isForm (n + 1) s ↔ ∃ form, Form (n + 1) s form := by
  simp only [isForm, Bool.or_eq_true, Bool.and_eq_true, covers_iff]
  constructor
  · rintro ((⟨f, hf⟩ | ⟨hstarts, b, hb⟩) | ⟨e, he⟩)
    · exact ⟨_, .definition hf⟩
    · refine ⟨_, .statements hb ?_⟩
      obtain ⟨-, hsome⟩ | ⟨-, hnil⟩ := statements_of_plainBody hb
      · exact hsome
      · rw [(State.Proper.kinds_eq_nil s).mp hnil] at hstarts
        cases hstarts
    · exact ⟨_, .expression he⟩
  · rintro ⟨form, hform⟩
    cases hform with
    | definition whole => exact .inl (.inl ⟨_, whole⟩)
    | statements whole hsome =>
      have hstarts := ((statements_of_plainBody whole).resolve_right fun h => hsome h.1).1
      exact .inl (.inr ⟨hstarts, _, whole⟩)
    | expression whole => exact .inr ⟨_, whole⟩

/-- Whether a text has one of the forms of an entry. -/
def hasForm (limits : Limits) (text : Bytes) : Bool :=
  let scan := Token.tokenize limits text
  match advance (.ofScan scan) with
  | .ok _ s => isForm (scan.tokens.length + 2) s
  | .error _ _ | .exhausted => false

theorem hasForm_iff {limits : Limits} {text : Bytes} :
    hasForm limits text ↔ ∃ form, IsForm limits text form := by
  simp only [hasForm, IsForm]
  generalize advance (.ofScan (Token.tokenize limits text)) = o
  cases o with
  | ok _ s =>
    refine isForm_iff.trans ⟨?_, ?_⟩
    · rintro ⟨form, hform⟩
      exact ⟨form, s, rfl, hform⟩
    · rintro ⟨form, _, ⟨⟩, hform⟩
      exact ⟨form, hform⟩
  | error d s => simp
  | exhausted => simp

/-- The first token is fetched, and if there is none there is no entry. -/
theorem gives_entry {scan : Token.Scan} {s : State} {n : Nat} {tree : Node}
    (hs : advance (.ofScan scan) = .ok () s) (hc : s.clean) :
    Gives (entry n) (.ofScan scan) tree ↔
      s.kinds ≠ [] ∧ Gives (entryNode n >>= conclude) s tree := by
  rw [entry_eq, Gives, Step.bind_apply, hs]
  dsimp only
  rw [Step.bind_apply, at?, Step.gets, Ne, State.Proper.kinds_eq_nil]
  dsimp only
  by_cases hend : s.current.kind = .endOfInput
  · simp [hend]
  · obtain ⟨_, s₁, hs₁, halike⟩ := (quiet_enter "<Interactive>").alike s
    have hblind := (blind_entryNode n).bind fun _ _ h => blind_conclude h
    rw [gives_same hblind ((Same.refl hc).alike (.refl _) halike), Gives]
    simp [hend, hs₁]

/-- A text that is scanned to its end is parsed as an entry if and only if it has one of the forms
of an entry, from its first token to its last, and this form is tried: it is not a list of
statements that begins with a call, nor an expression that begins with an input or with a read from
a file. The tree is the one that the production of the form yields, up to spans. -/
theorem parseEntry_iff_form (limits : Limits) (text : Bytes) (h : scans limits text) (tree : Node) :
    (∃ node s, parseEntry limits text = .ok (some node) s ∧ node.bare = tree) ↔
      ∃ form, IsForm limits text form ∧ form.bare = tree ∧
        overlooked form (kindsOf limits text) = false := by
  obtain ⟨e, hend⟩ := scans_iff.mp h
  obtain ⟨s, hs, hproper, hleft, hending⟩ | ⟨-, f, hf, -⟩ := fetch (properScan_tokenize limits text)
  · have hkinds : s.kinds = kindsOf limits text := by rw [State.kinds, hleft, kindsOf]
    have hclean : s.clean := by simp [State.clean, hending, hend]
    have hform : ∀ form, IsForm limits text form ↔
        Form ((Token.tokenize limits text).tokens.length + 2) s form := by
      intro form
      refine ⟨?_, fun hform => ⟨s, hs, hform⟩⟩
      rintro ⟨s', hs', hform⟩
      rw [hs] at hs'
      cases hs'
      exact hform
    have hlen : s.kinds.length < (Token.tokenize limits text).tokens.length + 2 := by
      simp [State.kinds, hleft]
    simp only [hform, ← hkinds]
    refine (gives_entry hs hclean).trans ?_
    constructor
    · rintro ⟨hne, hgives⟩
      exact (gives_entryNode hproper hclean hne hlen).mp hgives
    · rintro ⟨form, hform, htree, htried⟩
      have hne := hform.kinds_ne_nil
      exact ⟨hne, (gives_entryNode hproper hclean hne hlen).mpr ⟨form, hform, htree, htried⟩⟩
  · rw [hf] at hend
    cases hend

/-- Two calls make a list of statements, though not one that is tried. -/
theorem parseEntry_iff_form_calls :
    let text : Bytes := "f(1); g(2)"
    scans {} text ∧ (∃ form, IsForm {} text form) ∧
      ∀ form, IsForm {} text form → overlooked form (kindsOf {} text) := by
  intro text
  have hscans : scans {} text := by decide +kernel
  have hform : hasForm {} text := by decide +kernel
  have hfails : (entryOf? {} text).isSome = false := by decide +kernel
  refine ⟨hscans, hasForm_iff.mp hform, fun form hform => ?_⟩
  by_contra htried
  obtain ⟨node, s, hparse, -⟩ := (parseEntry_iff_form {} text hscans form.bare).mpr
    ⟨form, hform, rfl, by simpa using htried⟩
  rw [entryOf?_eq_some.mpr ⟨s, hparse⟩] at hfails
  cases hfails

-- an expression that begins with an input
example : hasForm {} "ohayo() + x" ∧ (entryOf? {} "ohayo() + x").isNone := by decide +kernel

end Kotoba.Syntax
