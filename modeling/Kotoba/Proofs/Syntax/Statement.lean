import Kotoba.Proofs.Syntax.Expression
import Kotoba.Syntax.Statement

/-! How statements and lists of statements take in tokens. -/
namespace Kotoba.Syntax

open Token (Kind)
open Kotoba.Syntax.Parser

instance : Nonempty Stmt := ⟨.leave {}⟩

instance : Nonempty Body := ⟨⟨[], {}⟩⟩

/-- What may follow a statement without going on with it. -/
abbrev endsStmt : Follow := some [.endOfInput, .mark .semicolon, .mark .closeBrace]

/-- What may follow a list of statements without going on with it. -/
abbrev endsBody : Follow := some [.endOfInput, .mark .closeBrace]

variable {α ι : Type} {n : Nat} {n' : ι → Nat} {K : List Kind → Prop} {follow : Follow} {k : Kind}

/-- How a production takes in a statement; an assignment will do. -/
abbrev TakesStmt (n : Nat) (n' : ι → Nat) (x : Parser Stmt) (y : ι → Parser Stmt) : Prop :=
  Takes n n' (fun _ => True) endsStmt [.identifier, .mark .assign, .integer] true x y

/-- How a production takes in a body in braces, which may be empty. -/
abbrev TakesBlock (n : Nat) (n' : ι → Nat) (x : Parser Body) (y : ι → Parser Body) : Prop :=
  Takes n n' (fun _ => True) none [.mark .openBrace, .mark .closeBrace] true x y

section Bodies

variable {x : Parser Stmt} {y : ι → Parser Stmt} (h : TakesStmt n n' x y) (hle : ∀ i, n ≤ n' i)
include h hle

theorem takes_statements :
    Takes n n' (fun _ => True) endsBody [] false (statements x n) fun i =>
      statements (y i) (n' i) := by
  have hends : ∀ k, endsBody.Has k → startsStatement k = false := by decide
  refine (Takes.fueled (x := fun fuel (_ : Unit) => statements x fuel)
    (y := fun fuel i (_ : Unit) => statements (y i) fuel) (by decide) (fun i m _ _ => ?_)
    (fun m m' _ hm hm' ih _ => ?_) hle (Nat.le_refl _) (fun _ => Nat.le_refl _) ()).reindex
    fun i => (i, ())
  · refine Fills.choose_nil fun k hk => ?_
    rw [hends k hk]
    exact .pure _
  · refine Reads.choose (fun k => ?_) fun _ _ _ k hk => by rw [hends k hk, hends _ (by decide)]
    cases hk : startsStatement k with
    | false => exact .pure _ _
    | true =>
      have hfirst := ((h.reindex Prod.fst).within hm fun p : ι × Unit => hm' p.1).reads
      exact (Reads.eat_goOn (hfirst.under fun _ _ => trivial) (fun _ =>
        (takes_skipSemicolon (by decide)).goOn fun _ => ((ih ()).reindex _).goOn fun _ => .pure _ _)
        (by decide)).idle

end Bodies

theorem reads_jump (build : Span → Stmt) (hK : ∀ ks, K ks → first ks ≠ .endOfInput) :
    Reads n n' K endsBody true (jump build) fun _ : ι => jump build :=
  .quiet quiet_here (fun _ => quiet_here) fun _ => (Reads.passes hK).andThen fun _ =>
    .quiet (quiet_finish _) (fun _ => quiet_finish _) fun _ =>
      (takes_skipSemicolon (by decide)).goOn fun _ => .pure _ _

theorem takes_finalJump :
    Takes n n' K endsBody [] false finalJump fun _ : ι => finalJump := by
  refine Takes.choose (fun k => ?_) (fun i k hk => ?_) fun i => .pure _
  · cases k with
    | mark m =>
      cases m
      case leave | proceed => exact (reads_jump _ fun ks hks => by rw [hks.2]; decide).idle
      all_goals exact .pure _ _
    | _ => exact .pure _ _
  · cases k with
    | mark m => cases m <;> first | rfl | exact absurd hk (by decide)
    | _ => rfl

section Blocks

variable {x : Parser Stmt} {y : ι → Parser Stmt} (h : TakesStmt n n' x y) (hle : ∀ i, n ≤ n' i)
include h hle

theorem takes_body (conditional : Bool) :
    Takes n n' (fun _ => True) endsBody [] false (body x n conditional) fun i =>
      body (y i) (n' i) conditional := by
  refine .quiet (quiet_enter _) (fun _ => quiet_enter _) fun _ => ?_
  refine .quiet quiet_here (fun _ => quiet_here) fun _ => ?_
  refine (takes_statements (h.reindex _) fun _ => hle _).goOn fun _ => ?_
  cases conditional with
  | true => exact takes_finalJump.goOn fun _ => .spanned _ _ _ _
  | false => exact (Takes.pure _ _).goOn fun _ => .spanned _ _ _ _

theorem takes_braced (conditional : Bool) :
    TakesBlock n n' (braced x n conditional) fun i => braced (y i) (n' i) conditional :=
  (takes_expect _ (by decide)).andThen fun _ =>
    (takes_body (h.reindex _) (fun _ => hle _) conditional).upTo
      (fun _ => (takes_expect _ (by decide)).goOn fun _ => .pure _ _) (by decide)

theorem takes_bracedOrSingle :
    TakesBlock n n' (bracedOrSingle x n) fun i => bracedOrSingle (y i) (n' i) := by
  have hblock := takes_braced h hle false
  refine ⟨?_, fun i => ?_, by decide⟩
  · refine Reads.test (by decide) (hblock.reads.under fun _ _ => trivial) ?_ fun h => nomatch h
    refine .quiet quiet_here (fun _ => quiet_here) fun _ => ?_
    refine Reads.choose (fun k => ?_) fun h => nomatch h
    cases hk : startsStatement k with
    | false => exact .unexpected _ _
    | true =>
      refine .under ?_ fun _ _ => (trivial : True)
      exact ((h.reindex _).upTo (fun _ => (takes_expect _ (by decide)).goOn fun _ => .spanned _ _ _ _)
        (by decide)).reads
  · exact Fills.choose (p := fun k => if k == .mark .openBrace then braced (y i) (n' i) false else _)
      (hblock.fills i)

end Blocks

/-- What a return gives back, if anything. -/
def optionalValue (expr : Parser Expr) : Parser (Option Expr) := do
  if startsExpression (← kind) then
    if ← at? .identifier then
      let next ← peek
      if next == .mark .assign then pure none else some <$> expr
    else some <$> expr
  else pure none

theorem giveBack_eq (expr : Parser Expr) : giveBack expr = (do
    let start ← here
    advance
    let value ← optionalValue expr
    pure (.giveBack value (← finish start))) := by
  unfold giveBack optionalValue
  refine bind_congr fun _ => bind_congr fun _ => ?_
  rw [bind_assoc]
  refine bind_congr fun k => ?_
  split
  · rw [bind_assoc]
    refine bind_congr fun named => ?_
    split
    · rw [bind_assoc, bind_map_left]
      refine bind_congr fun next => ?_
      split <;> rfl
    · rfl
  · rfl

/-- The value to give back is the expression that begins, unless that is a name to be assigned
to. -/
theorem takes_optionalValue {e : Parser Expr} {e' : ι → Parser Expr} (he : TakesExpr n n' k e e')
    (hname : Fills n endsExpr [.identifier] e) :
    Takes n n' K endsStmt [] false (optionalValue e) fun i => optionalValue (e' i) := by
  have hends : ∀ k, endsStmt.Has k → startsExpression k = false := by decide
  have hvalue : ∀ K' : List Kind → Prop,
      Reads n n' K' endsStmt true (some <$> e) fun i => some <$> e' i :=
    fun K' => (((he.followed (by decide)).map _ _).reads).under fun _ _ => trivial
  refine Takes.choose (fun k => ?_) (fun i k hk => ?_) fun i => .pure _
  · cases hk : startsExpression k with
    | false => exact .pure _ _
    | true =>
      refine Reads.test (by decide) ?_ (hvalue _).idle fun _ _ => by decide
      refine Reads.peek (fun h => nomatch h.2) (fun k _ => ?_) (fun i k hk => ?_)
        fun t k ht hc htk hK hlen => ?_
      · cases hk : k == .mark .assign with
        | true => exact .pure _ _
        | false => exact (hvalue _).idle
      · have hne : ∀ k, endsStmt.Has k → (k == .mark .assign) = false := by decide
        rw [hne k hk]
        rfl
      · obtain rfl : k = .identifier := hK.2
        exact .inl ((hvalue fun _ => True).succeeds (hname.map some) ht hc htk (by decide) trivial hlen)
  · rw [hends k hk]
    rfl

theorem reads_giveBack {e : Parser Expr} {e' : ι → Parser Expr} (he : TakesExpr n n' k e e')
    (hname : Fills n endsExpr [.identifier] e) (hK : ∀ ks, K ks → first ks ≠ .endOfInput) :
    Reads (n + 1) (n' · + 1) K endsStmt true (giveBack e) fun i => giveBack (e' i) := by
  simp only [giveBack_eq]
  exact .quiet quiet_here (fun _ => quiet_here) fun _ => (Reads.passes hK).eat fun _ =>
    (takes_optionalValue (he.reindex _) hname).goOn fun _ => .spanned _ _ _ _

/-- The operator has been seen before the name is consumed. -/
theorem reads_advancement (op : Op)
    (hK : ∀ ks, K ks → first ks = .identifier ∧ first ks.tail ≠ .endOfInput) :
    Reads n n' K none true (advancement op) fun _ : ι => advancement op := by
  refine .quiet quiet_here (fun _ => quiet_here) fun _ => ?_
  have hname : Reads n (fun p : ι × Position => n' p.1) K none true expectName fun _ => expectName :=
    reads_expectName
  have hnext : ∀ s a s', s.Proper → K s.kinds → expectName s = .ok a s' →
      first s'.kinds ≠ .endOfInput := by
    intro s a s' hs hks h
    obtain ⟨hfirst, htail⟩ := hK _ hks
    cases hsk : s.kinds with
    | nil =>
      rw [hsk] at hfirst
      cases hfirst
    | cons k ks =>
      rw [hsk] at hfirst htail
      obtain rfl : k = .identifier := hfirst
      rw [kinds_of_expectName hs hsk h]
      exact htail
  have hfill : ∀ (i : ι) (start : Position) (target : Ident), Fills (n' i) none [.integer]
      (operator op >>= fun op => finish start >>= fun span => pure (Stmt.advance target op span)) :=
    fun _ _ _ => (fills_operator op).seq (fun _ => .quiet (quiet_finish _) fun _ => .pure _)
      (Follow.joins_nil fun _ h => h)
  exact Reads.bind_of hname
    (fun _ => (reads_operator op op fun _ h => h).andThen fun _ => .spanned _ _ _ _) hnext
    (fun _ _ => hfill _ _ _) (by decide) Follow.joins_any (fun _ _ _ => trivial)
    (Nat.le_add_right _ _) fun _ => Nat.le_add_right _ _

/-- Elements of which there is a first one. -/
def elementsFrom (expr : Parser Expr) (fuel : Nat) : Parser (List Expr) := do
  let first ← expr
  if ← at? Mark.comma then
    advance
    let rest ← elements expr fuel
    pure (first :: rest)
  else pure [first]

/-- A name that nothing fitting follows. -/
theorem reads_lost (wanted : List Bytes) (hK : ∀ ks, K ks → 2 ≤ ks.length) :
    Reads n n' K follow true (advance >>= fun _ => unexpected (α := α) wanted) fun _ : ι =>
      advance >>= fun _ => unexpected wanted := by
  -- where it is lost there is a token
  have hrun : ∀ (s : State) (k k' : Kind) (ks : List Kind), s.Proper → s.kinds = k :: k' :: ks →
      ∃ d s', (advance >>= fun _ => unexpected (α := α) wanted) s = .error d s' ∧
        d.isIncomplete = false := by
    intro s k k' ks hs hk
    obtain ⟨s', hadvance, hp, hks, -⟩ := advance_ok hs hk (.inl (by simp))
    refine ⟨unexpectedAt s'.current wanted, s', by rw [Step.bind_apply, hadvance]; rfl, ?_⟩
    have hne : s'.current.kind ≠ .endOfInput := by
      rw [Ne, ← State.Proper.kinds_eq_nil, hks]
      simp
    simp [unexpectedAt, Diagnostic.isIncomplete, hne]
  intro s hs hks hlen
  obtain ⟨k, k', ks, hk⟩ : ∃ k k' ks, s.kinds = k :: k' :: ks := by
    have htwo := hK _ hks
    generalize s.kinds = all at htwo
    rcases all with _ | ⟨k, _ | ⟨k', ks⟩⟩
    · simp at htwo
    · simp at htwo
    · exact ⟨k, k', ks, rfl⟩
  obtain ⟨d, s', hd, hcomplete⟩ := hrun s k k' ks hs hk
  rw [hd]
  refine ⟨fun h => ?_, fun _ => ⟨by simp [hk], fun more t i ht _ => ?_⟩⟩
  · rw [hcomplete] at h
    cases h
  · obtain ⟨d', t', hd', -⟩ := hrun t k k' (ks ++ more) ht.proper (by rw [ht.kinds, hk]; rfl)
    exact ⟨d', t', hd'⟩

theorem lost_last {s : State} (hs : s.Proper) (hc : s.clean) (hk : s.kinds = [k])
    (wanted : List Bytes) :
    ∃ d s', (advance >>= fun _ => unexpected (α := α) wanted) s = .error d s' ∧
      d.isIncomplete := by
  obtain ⟨s', hadvance, -, hks, -⟩ := advance_ok hs hk (.inr hc)
  refine ⟨unexpectedAt s'.current wanted, s', by rw [Step.bind_apply, hadvance]; rfl, ?_⟩
  simp [unexpectedAt, Diagnostic.isIncomplete, (State.Proper.kinds_eq_nil s').mp hks]

section Statements

variable {e s : Parser Expr} {e' s' : ι → Parser Expr} (he : TakesExpr n n' .integer e e')
  (hs : TakesExpr n n' .integer s s')

section

include he

theorem takes_pair :
    Takes n n' K none [.mark .openParen, .integer, .mark .comma, .integer, .mark .closeParen] true
      (pair e) fun i => pair (e' i) :=
  (takes_expect _ (by decide)).andThen fun _ => (he.reindex _).upTo
    (fun _ => (takes_expect _ (by decide)).andThen fun _ => (he.reindex _).upTo
      (fun _ => (takes_expect _ (by decide)).goOn fun _ => .pure _ _) (by decide)) (by decide)

theorem takes_updateOf (target : Ident × Expr × Span) (start : Position)
    (target' : ι → Ident × Expr × Span) (start' : ι → Position) :
    Takes n n' K endsStmt [.mark .assign, .integer] true (updateOf e target start) fun i =>
      updateOf (e' i) (target' i) (start' i) :=
  (takes_expect _ (by decide)).andThen fun _ =>
    ((he.reindex _).followed (by decide)).goOn fun _ => .spanned _ _ _ _

theorem reads_assignment :
    Reads (n + 1) (n' · + 1) K endsStmt true (assignment e) fun i => assignment (e' i) :=
  .quiet quiet_here (fun _ => quiet_here) fun _ => reads_expectName.eat fun _ =>
    (takes_expect _ (by decide)).andThen fun _ =>
      ((he.reindex _).followed (by decide)).goOn fun _ => .spanned _ _ _ _

theorem fills_assignment (i : ι) :
    Fills (n' i + 1) endsStmt [.identifier, .mark .assign, .integer] (assignment (e' i)) := by
  have hname : Fills (n' i + 1) none [.identifier] expectName := fills_expectName
  have hassign : Fills (n' i) none [.mark .assign] (expect Mark.assign) := fills_expect _
  refine .quiet quiet_here fun _ => hname.bind (fun _ => hassign.seq (fun _ => ?_) Follow.joins_any)
    Follow.joins_any (Nat.le_refl _)
  exact (he.fills i).seq (fun _ => .quiet (quiet_finish _) fun _ => .pure _)
    (Follow.joins_nil (by decide))

/-- A comma may stand after the last element. -/
theorem takes_elements (hle : ∀ i, n ≤ n' i) :
    Takes n n' (fun _ => True) (some [.mark .closeBrace]) [] false (elements e n) fun i =>
      elements (e' i) (n' i) := by
  refine (Takes.fueled (x := fun fuel (_ : Unit) => elements e fuel)
    (y := fun fuel i (_ : Unit) => elements (e' i) fuel) (by decide) (fun i m _ _ => ?_)
    (fun m m' _ hm hm' ih _ => ?_) hle (Nat.le_refl _) (fun _ => Nat.le_refl _) ()).reindex
    fun i => (i, ())
  · refine Fills.choose_nil (p := fun k => if k == .mark .closeBrace then pure [] else
      elementsFrom (e' i) m) fun k hk => ?_
    rw [List.mem_singleton.mp hk]
    exact .pure _
  · have hitem : ∀ K', Reads (m + 1) (fun p : ι × Unit => m' p.1 + 1) K' (some [.mark .closeBrace])
        true (elementsFrom e m) fun p => elementsFrom (e' p.1) (m' p.1) := by
      intro K'
      refine .under ?_ fun _ _ => trivial
      have hfirst := (he.reindex Prod.fst).within hm fun p : ι × Unit => hm' p.1
      refine (hfirst.goOn_of (fun _ => Takes.test (by decide) (by decide) ?_ (.pure _ _))
        (by decide)).reads
      exact Reads.idle (Reads.eat (.passes fun ks hks => by rw [hks.2]; decide) fun _ =>
        ((ih ()).reindex _).goOn fun _ => .pure _ _)
    have hnone : Reads (m + 1) (fun p : ι × Unit => m' p.1 + 1)
        (fun ks => ks = [] ∧ first ks = .mark .closeBrace) (some [.mark .closeBrace]) true
        (pure ([] : List Expr)) fun _ => pure [] := by
      rintro s - ⟨hnil, hfirst⟩
      rw [hnil] at hfirst
      cases hfirst
    -- at the end of the input an element is wanted, though a brace would do
    exact Reads.of_ne_nil
      (.test (by decide) (.pure _ _) (hitem _).idle fun _ h => absurd rfl h.2)
      (Reads.test (by decide) hnone (hitem _) fun h => nomatch h)

theorem reads_print (hle : ∀ i, n ≤ n' i) (newline : Bool) (hK : ∀ ks, K ks → first ks ≠ .endOfInput) :
    Reads (n + 1) (n' · + 1) K none true (print e n newline) fun i => print (e' i) (n' i) newline :=
  .quiet quiet_here (fun _ => quiet_here) fun _ => (Reads.passes hK).eat fun _ =>
    (takes_arguments (he.reindex _) fun _ => hle _).goOn fun _ => .spanned _ _ _ _

theorem reads_writeFile (newline : Bool) (hK : ∀ ks, K ks → first ks ≠ .endOfInput) :
    Reads (n + 1) (n' · + 1) K none true (writeFile e newline) fun i => writeFile (e' i) newline :=
  .quiet quiet_here (fun _ => quiet_here) fun _ => (Reads.passes hK).eat fun _ =>
    (takes_expect _ (by decide)).andThen fun _ => takes_expectName.andThen fun _ =>
      (takes_expect _ (by decide)).andThen fun _ => (he.reindex _).upTo
        (fun _ => (takes_expect _ (by decide)).goOn fun _ => .spanned _ _ _ _) (by decide)

variable {b : Parser Body} {b' : ι → Parser Body} (hb : TakesBlock n n' b b')
include hb

theorem reads_loop (hK : ∀ ks, K ks → first ks ≠ .endOfInput) :
    Reads (n + 1) (n' · + 1) K none true (loop e b) fun i => loop (e' i) (b' i) :=
  .quiet (quiet_enter _) (fun _ => quiet_enter _) fun _ =>
    .quiet quiet_here (fun _ => quiet_here) fun _ => (Reads.passes hK).eat fun _ =>
      (takes_parenthesized (he.reindex _) (by decide)).andThen fun _ =>
        (hb.reindex _).goOn fun _ => .spanned _ _ _ _

theorem reads_range (hK : ∀ ks, K ks → first ks ≠ .endOfInput) :
    Reads (n + 1) (n' · + 1) K none true (range e b) fun i => range (e' i) (b' i) :=
  .quiet (quiet_enter _) (fun _ => quiet_enter _) fun _ =>
    .quiet quiet_here (fun _ => quiet_here) fun _ => (Reads.passes hK).eat fun _ =>
      takes_expectName.andThen fun _ => (takes_expect _ (by decide)).andThen fun _ =>
        (takes_pair (he.reindex _)).andThen fun _ => (hb.reindex _).goOn fun _ => .spanned _ _ _ _

theorem takes_orWhens (hle : ∀ i, n ≤ n' i) :
    Takes n n' (fun _ => True) endsStmt [] false (orWhens e b n) fun i =>
      orWhens (e' i) (b' i) (n' i) := by
  refine (Takes.fueled (x := fun fuel (_ : Unit) => orWhens e b fuel)
    (y := fun fuel i (_ : Unit) => orWhens (e' i) (b' i) fuel) (by decide)
    (fun i m _ _ => .test (by decide) (.pure _))
    (fun m m' _ hm hm' ih _ => ?_) hle (Nat.le_refl _) (fun _ => Nat.le_refl _) ()).reindex
    fun i => (i, ())
  have he' := he.within (Nat.le_of_succ_le hm) fun i => Nat.le_of_succ_le (hm' i)
  have hb' := hb.within (Nat.le_of_succ_le hm) fun i => Nat.le_of_succ_le (hm' i)
  refine Reads.test (by decide) (.idle ?_) (.pure _ _) fun _ _ => by decide
  refine .quiet quiet_here (fun _ => quiet_here) fun _ => ?_
  exact Reads.eat (.passes fun ks hks => by rw [hks.2]; decide) fun _ =>
    (takes_parenthesized (he'.reindex _) (by decide)).andThen fun _ => (hb'.reindex _).andThen fun _ =>
      .quiet (quiet_finish _) (fun _ => quiet_finish _) fun _ =>
        ((ih ()).reindex _).goOn fun _ => .pure _ _

omit he in
theorem takes_otherwise :
    Takes n n' K endsStmt [] false (otherwise b) fun i => otherwise (b' i) := by
  refine Takes.test (by decide) (by decide) (.idle ?_) (.pure _ _)
  refine .quiet quiet_here (fun _ => quiet_here) fun _ => ?_
  exact Reads.andThen (.passes fun ks hks => by rw [hks.2]; decide) fun _ =>
    (hb.reindex _).goOn_of (fun _ =>
      .quiet (quiet_finish _) (fun _ => quiet_finish _) fun _ => .pure _ _) fun _ _ => trivial

theorem reads_conditional (hle : ∀ i, n ≤ n' i) (hK : ∀ ks, K ks → first ks ≠ .endOfInput) :
    Reads (n + 1) (n' · + 1) K endsStmt true (conditional e b n) fun i =>
      conditional (e' i) (b' i) (n' i) :=
  .quiet (quiet_enter _) (fun _ => quiet_enter _) fun _ =>
    .quiet quiet_here (fun _ => quiet_here) fun _ => (Reads.passes hK).eat fun _ =>
      (takes_parenthesized (he.reindex _) (by decide)).andThen fun _ => (hb.reindex _).andThen fun _ =>
        (takes_orWhens (he.reindex _) (hb.reindex _) fun _ => hle _).goOn fun _ =>
          (takes_otherwise (hb.reindex _)).goOn fun _ => .spanned _ _ _ _

end

section

include he hs

/-- After the arrow, an array without elements is the shortest thing to come. -/
theorem reads_declaration (hle : ∀ i, n ≤ n' i) :
    Reads (n + 1) (n' · + 1) K none true (declaration e s n) fun i =>
      declaration (e' i) (s' i) (n' i) := by
  refine .quiet quiet_here (fun _ => quiet_here) fun start => ?_
  refine reads_expectName.eat fun target => (takes_expect _ (by decide)).andThen fun _ =>
    (?_ : Takes n (fun p : ((ι × Position) × Ident) × Unit => n' p.1.1.1) _ none
      [.mark .openBrace, .mark .closeBrace] true _ _)
  have hpass : ∀ {κ : Type} {m' : κ → Nat} (m : Mark), Reads n m'
      (fun ks => True ∧ first ks = .mark m) none true advance fun _ : κ => advance :=
    fun m => .passes fun ks hks => by rw [hks.2]; rintro ⟨⟩
  refine ⟨.choose (fun k => ?_) (fun h => nomatch h), fun p => .choose ?_, by decide⟩
  · cases k with
    | mark m =>
      cases m
      case openBracket =>
        exact (hpass _).andThen fun _ => (hs.reindex _).upTo
          (fun _ => (takes_expect _ (by decide)).goOn fun _ => .spanned _ _ _ _) (by decide)
      case openBrace =>
        exact (hpass _).andThen fun _ => (takes_elements (he.reindex _) fun _ => hle _).upTo
          (fun _ => (takes_expect _ (by decide)).goOn fun _ => .spanned _ _ _ _) (by decide)
      case openFile | split =>
        exact (hpass _).andThen fun _ => (takes_pair (he.reindex _)).goOn fun _ => .spanned _ _ _ _
      all_goals exact .unexpected _ _
    | _ => exact .unexpected _ _
  · refine (Fills.advance _).seq (fun _ => ?_) Follow.joins_any
    refine ((takes_elements he hle).fills p.1.1.1).seq (fun _ => ?_) (Follow.joins_cons (by decide))
    exact (fills_expect _).seq (fun _ => .quiet (quiet_finish _) fun _ => .pure _) Follow.joins_any

theorem reads_nameStatement (hle : ∀ i, n ≤ n' i) (hK : ∀ ks, K ks → first ks = .identifier) :
    Reads (n + 1) (n' · + 1) K endsStmt true (nameStatement e s n) fun i =>
      nameStatement (e' i) (s' i) (n' i) := by
  have hne : ¬ K [] := fun h => nomatch hK [] h
  refine Reads.peek hne (fun k hk => ?_) (fun i k hk => ?_) fun t k ht hc htk hKt _ => .inr ?_
  · have hlong : ∀ ks, K ks ∧ first ks.tail = k → 2 ≤ ks.length := by
      rintro (_ | ⟨_, _ | ⟨_, _⟩⟩) ⟨hks, htail⟩
      · exact absurd hks hne
      · exact absurd htail.symm hk
      · simp
    cases k with
    | mark m =>
      cases m
      case assign => exact reads_assignment he
      case increment | decrement =>
        refine (reads_advancement _ fun ks hks => ⟨hK ks hks.1, ?_⟩).followed fun _ _ => trivial
        rw [hks.2]
        exact hk
      case openParen => exact ((reads_call he hle).map _ _).followed fun _ _ => trivial
      case arrow => exact (reads_declaration he hs hle).followed fun _ _ => trivial
      case openBracket =>
        exact .quiet quiet_here (fun _ => quiet_here) fun _ => (reads_slot (hs.reindex _)).eat fun _ =>
          takes_updateOf (he.reindex _) _ _ _ _
      all_goals exact reads_lost _ hlong
    | _ => exact reads_lost _ hlong
  · cases k with
    | mark m => cases m <;> first | rfl | exact absurd hk (by decide)
    | _ => rfl
  · obtain rfl : k = .identifier := hK _ hKt
    obtain ⟨d, t', hd, hincomplete⟩ := lost_last ht hc htk _
    exact ⟨d, t', hd, hincomplete, [.mark .assign, .integer], by decide, fun i =>
      Fills.peek (fills_assignment he i)⟩

theorem reads_statementWith {b : Parser Body} {b' : ι → Parser Body} (hb : TakesBlock n n' b b')
    (hname : Fills n endsExpr [.identifier] e) (hle : ∀ i, n ≤ n' i) :
    Reads (n + 1) (n' · + 1) K endsStmt true (statementWith e s b n) fun i =>
      statementWith (e' i) (s' i) (b' i) (n' i) := by
  refine .quiet (quiet_enter _) (fun _ => quiet_enter _) fun _ => ?_
  have he := he.reindex fun p : ι × Unit => p.1
  have hs := hs.reindex fun p : ι × Unit => p.1
  have hb := hb.reindex fun p : ι × Unit => p.1
  have hle : ∀ p : ι × Unit, n ≤ n' p.1 := fun p => hle p.1
  refine Reads.choose (fun k => ?_) fun h => nomatch h
  have hK : k ≠ .endOfInput → ∀ ks, K ks ∧ first ks = k → first ks ≠ .endOfInput :=
    fun hne ks hks => hks.2 ▸ hne
  cases k with
  | identifier => exact reads_nameStatement he hs hle fun ks hks => hks.2
  | mark m =>
    cases m
    case giveBack => exact reads_giveBack he hname (hK (by decide))
    case loop => exact (reads_loop he hb (hK (by decide))).followed fun _ _ => trivial
    case range => exact (reads_range he hb (hK (by decide))).followed fun _ _ => trivial
    case when => exact reads_conditional he hb hle (hK (by decide))
    case print | printLine =>
      exact (reads_print he hle _ (hK (by decide))).followed fun _ _ => trivial
    case input => exact reads_inputLine.map _ _
    case closeFile => exact (reads_fileVerb _ (hK (by decide))).followed fun _ _ => trivial
    case readFile =>
      exact ((reads_readFile he (hK (by decide))).map _ _).followed fun _ _ => trivial
    case readLine =>
      exact ((reads_fileVerb _ (hK (by decide))).map _ _).followed fun _ _ => trivial
    case writeFile | writeLine =>
      exact (reads_writeFile he _ (hK (by decide))).followed fun _ _ => trivial
    all_goals exact .unexpected _ _
  | _ => exact .unexpected _ _

omit hs in
theorem fills_statementWith (i : ι) (s' : Parser Expr) (b' : Parser Body) :
    Fills (n' i + 1) endsStmt [.identifier, .mark .assign, .integer]
      (statementWith (e' i) s' b' (n' i)) :=
  .quiet (quiet_enter _) fun _ => .choose (.peek (fills_assignment he i))

end

end Statements

theorem takes_statement (hle : ∀ i, n ≤ n' i) :
    TakesStmt n n' (statement n) fun i => statement (n' i) := by
  refine (Takes.fueled (x := fun fuel (_ : Unit) => statement fuel)
    (y := fun fuel _ (_ : Unit) => statement fuel) (by decide) (fun _ m _ _ => ?_)
    (fun m m' hm _ _ ih _ => ?_) hle (Nat.le_refl _) (fun _ => Nat.le_refl _) ()).reindex
    fun i => (i, ())
  · have hexpr : TakesExpr m (fun _ : Unit => m) .integer (expression m) fun _ => expression m :=
      takes_expression (.inl rfl) fun _ => Nat.le_refl m
    exact fills_statementWith hexpr () _ _
  · have hm' : ∀ p : ι × Unit, m ≤ m' p.1 := fun p => hm p.1
    have hname : TakesExpr m (fun _ : Unit => m) .identifier (expression m) fun _ => expression m :=
      takes_expression (.inr rfl) fun _ => Nat.le_refl m
    exact reads_statementWith (takes_expression (.inl rfl) hm') (takes_sumExpr (.inl rfl) hm')
      (takes_braced (ih ()) hm' true) (hname.fills ()) hm'

theorem takes_plainBody (hle : ∀ i, n ≤ n' i) :
    Takes n n' (fun _ => True) endsBody [] false (plainBody n) fun i => plainBody (n' i) :=
  takes_body (takes_statement hle) hle false

end Kotoba.Syntax
