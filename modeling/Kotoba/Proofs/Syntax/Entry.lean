import Kotoba.Proofs.Syntax.Statement

/-! How definitions and interactive entries take in tokens. -/
namespace Kotoba.Syntax

open Token (Kind)
open Kotoba.Syntax.Parser

instance : Nonempty FuncDef := ⟨⟨⟨"", {}⟩, [], none, {}⟩⟩

variable {α ι : Type} {n : Nat} {n' : ι → Nat} {K : List Kind → Prop}

/-- The names that may stand between the parentheses of a definition. -/
def optionalNames (fuel : Nat) : Parser (List Ident) := do
  if ← at? .identifier then commaList expectName fuel else pure []

theorem parameters_eq (fuel : Nat) : parameters fuel = (do
    expect Mark.openParen
    let params ← optionalNames fuel
    expect Mark.closeParen
    pure params) := by
  unfold parameters optionalNames
  simp only [bind_assoc]
  refine bind_congr fun _ => bind_congr fun named => ?_
  split <;> rfl

theorem takes_parameters (hle : ∀ i, n ≤ n' i) :
    Takes n n' K none [.mark .openParen, .mark .closeParen] true (parameters n) fun i =>
      parameters (n' i) := by
  have hname : Takes n n' (fun _ => True) none [.identifier] true expectName fun _ => expectName :=
    takes_expectName
  have hnames : Takes n n' (fun _ => True) (some [.mark .closeParen]) [.identifier] true
      (commaList expectName n) fun i => commaList expectName (n' i) :=
    takes_commaList hname (fun _ _ => trivial) (by decide) hle
  have hoptional : Takes n n' (fun _ => True) (some [.mark .closeParen]) [] false
      (optionalNames n) fun i => optionalNames (n' i) :=
    Takes.test (by decide) (by decide) (hnames.reads.under fun _ _ => trivial).idle (.pure _ _)
  simp only [parameters_eq]
  exact (takes_expect _ (by decide)).andThen fun _ => (hoptional.reindex _).upTo
    (fun _ => (takes_expect _ (by decide)).goOn fun _ => .pure _ _) (by decide)

/-- The parameters that may follow the name of a function. -/
def optionalParameters (fuel : Nat) : Parser (List Ident) := do
  if ← at? Mark.openParen then parameters fuel else pure []

theorem definition_eq (fuel : Nat) : definition fuel = (do
    enter "<FuncDef>"
    let start ← here
    expect Mark.define
    let name ← expectName
    let params ← optionalParameters fuel
    expect Mark.arrow
    let b ← bracedOrSingle (statement fuel) fuel
    pure ⟨name, params, b, ← finish start⟩) := by
  unfold definition optionalParameters
  refine bind_congr fun _ => bind_congr fun _ => bind_congr fun _ => bind_congr fun _ => ?_
  rw [bind_assoc]
  refine bind_congr fun named => ?_
  split <;> rfl

theorem reads_definition (hle : ∀ i, n ≤ n' i) :
    Reads n n' K none true (definition n) fun i => definition (n' i) := by
  have hparams : Takes n n' (fun _ => True) (some [.mark .arrow]) [] false
      (optionalParameters n) fun i => optionalParameters (n' i) :=
    Takes.test (by decide) (by decide)
      (((takes_parameters hle).followed fun _ _ => trivial).reads).idle (.pure _ _)
  have hblock := takes_bracedOrSingle (takes_statement hle) hle
  simp only [definition_eq]
  exact .quiet (quiet_enter _) (fun _ => quiet_enter _) fun _ =>
    .quiet quiet_here (fun _ => quiet_here) fun _ => (reads_expect (by decide)).andThen fun _ =>
      takes_expectName.andThen fun _ => (hparams.reindex _).upTo
        (fun _ => (takes_expect _ (by decide)).andThen fun _ =>
          (hblock.reindex _).goOn fun _ => .spanned _ _ _ _) (by decide)

/-- The end of an entry: nothing more may come, after an expression not more than a semicolon. -/
def conclude (node : Node) : Parser (Option Node) := do
  match node with
  | .expr _ => skipSemicolon
  | _ => pure ()
  if ← at? .endOfInput then pure (some node) else unexpected ["end of input"]

/-- Nothing may follow an entry. -/
abbrev endsEntry : Follow := some [.endOfInput]

theorem takes_end (node : Node) (node' : ι → Node) (wanted : List Bytes) :
    Takes n n' K endsEntry [] false
      (at? .endOfInput >>= fun b => if b then pure (some node) else unexpected wanted) fun i =>
      at? .endOfInput >>= fun b => if b then pure (some (node' i)) else unexpected wanted := by
  refine Takes.choose (p := fun k => if k == .endOfInput then pure (some node) else unexpected wanted)
    (q := fun i k => if k == .endOfInput then pure (some (node' i)) else unexpected wanted)
    (fun k => ?_) (fun i k hk => ?_) fun i => .pure _
  · cases k == .endOfInput with
    | true => exact .pure _ _
    | false => exact .unexpected _ _
  · rw [List.mem_singleton.mp hk]

theorem takes_conclude_expr (e : Expr) (e' : ι → Expr) :
    Takes n n' K endsEntry [] false (conclude (.expr e)) fun i => conclude (.expr (e' i)) :=
  (takes_skipSemicolon (by decide)).goOn fun _ => takes_end _ _ _

theorem takes_conclude_body (b : Body) (b' : ι → Body) :
    Takes n n' K endsEntry [] false (conclude (.body b)) fun i => conclude (.body (b' i)) :=
  takes_end _ _ _

theorem takes_conclude_function (f : FuncDef) (f' : ι → FuncDef) :
    Takes n n' K endsEntry [] false (conclude (.function f)) fun i => conclude (.function (f' i)) :=
  takes_end _ _ _

theorem slotEntry_eq (fuel : Nat) : slotEntry fuel >>= conclude = (do
    let start ← here
    let target ← slot (sumExpr fuel)
    if ← at? Mark.assign then
      let first ← updateOf (expression fuel) target start
      skipSemicolon
      let rest ← plainBody fuel
      let span ← finish start
      conclude (.body ⟨first :: rest.statements, span⟩)
    else
      let value ← comparisonAfter (factor fuel) fuel (.element target.1 target.2.1 target.2.2) start
      conclude (.expr value)) := by
  unfold slotEntry
  simp only [bind_assoc]
  refine bind_congr fun _ => bind_congr fun _ => bind_congr fun assigned => ?_
  cases assigned <;> simp

section Entries

variable (hle : ∀ i, n ≤ n' i)
include hle

theorem takes_bodyEntry :
    Takes n n' (fun _ => True) endsEntry [] false (.body <$> plainBody n >>= conclude) fun i =>
      .body <$> plainBody (n' i) >>= conclude := by
  simp only [bind_map_left]
  exact ((takes_plainBody hle).followed (by decide)).goOn fun _ => takes_conclude_body _ _

theorem takes_exprEntry {k : Kind} (hk : k = .integer ∨ k = .identifier) :
    Takes n n' (fun _ => True) endsEntry [k] true (.expr <$> expression n >>= conclude) fun i =>
      .expr <$> expression (n' i) >>= conclude := by
  simp only [bind_map_left]
  exact ((takes_expression hk hle).followed (by decide)).goOn fun _ => takes_conclude_expr _ _

theorem reads_slotEntry :
    Reads n n' K endsEntry true (slotEntry n >>= conclude) fun i =>
      slotEntry (n' i) >>= conclude := by
  have hslot : Reads n (fun p : ι × Position => n' p.1) K none true (slot (sumExpr n)) fun p =>
      slot (sumExpr (n' p.1)) :=
    (reads_slot (takes_sumExpr (.inl rfl) fun _ => hle _)).within (Nat.le_succ _) fun _ =>
      Nat.le_succ _
  simp only [slotEntry_eq]
  refine .quiet quiet_here (fun _ => quiet_here) fun start => hslot.andThen fun target =>
    Takes.test (by decide) (by decide) ?_ ?_
  · exact ((takes_updateOf (takes_expression (.inl rfl) fun _ => hle _) _ _ _ _).goOn_of
      (fun _ => (takes_skipSemicolon (by decide)).goOn fun _ => (takes_plainBody fun _ => hle _).goOn_of
        (fun _ => .quiet (quiet_finish _) (fun _ => quiet_finish _) fun _ =>
          takes_conclude_body _ _) (by decide)) (by decide)).reads.idle
  · refine Takes.under ?_ fun _ _ => trivial
    exact (takes_comparisonAfter (takes_factor (.inl rfl) fun _ => hle _)
      (fun _ => hle _) _ _ _ _).goOn_of (fun _ => takes_conclude_expr _ _) (by decide)

omit hle in
theorem nameEntry_eq (fuel : Nat) : nameEntry fuel >>= conclude = peek >>= fun k => (match k with
    | .mark .assign | .mark .increment | .mark .decrement | .mark .arrow =>
      .body <$> plainBody fuel
    | .mark .openBracket => slotEntry fuel
    | _ => .expr <$> expression fuel) >>= conclude := bind_assoc _ _ _

theorem reads_nameEntry (hK : ∀ ks, K ks → first ks = .identifier) :
    Reads n n' K endsEntry false (nameEntry n >>= conclude) fun i =>
      nameEntry (n' i) >>= conclude := by
  simp only [nameEntry_eq]
  refine Reads.peek (fun h => nomatch hK [] h) (fun k _ => ?_) (fun i k hk => ?_)
    fun t k ht hc htk hKt hlen => .inl ?_
  · cases k with
    | mark m =>
      cases m
      case assign | increment | decrement | arrow =>
        exact (takes_bodyEntry hle).reads.under fun _ _ => trivial
      case openBracket => exact (reads_slotEntry hle).idle
      all_goals exact ((takes_exprEntry hle (.inl rfl)).reads.under fun _ _ => trivial).idle
    | _ => exact ((takes_exprEntry hle (.inl rfl)).reads.under fun _ _ => trivial).idle
  · rw [List.mem_singleton.mp hk]
  · obtain rfl : k = .identifier := hK _ hKt
    have hname : Takes n (fun _ : Unit => n) (fun _ => True) endsEntry [.identifier] true
        (.expr <$> expression n >>= conclude) fun _ => .expr <$> expression n >>= conclude :=
      takes_exprEntry (fun _ => Nat.le_refl n) (.inr rfl)
    exact (takes_exprEntry hle (.inr rfl)).reads.succeeds (hname.fills ()) ht hc htk (by decide)
      trivial hlen

omit hle in
theorem entryNode_eq (fuel : Nat) : entryNode fuel >>= conclude = kind >>= fun k => (match k with
    | .mark .define => .function <$> definition fuel
    | .identifier => nameEntry fuel
    | k => if startsStatement k then .body <$> plainBody fuel else .expr <$> expression fuel) >>=
      conclude := bind_assoc _ _ _

/-- How an entry takes in tokens, after the first one is fetched. -/
theorem reads_entryNode :
    Reads n n' (· ≠ []) endsEntry false (entryNode n >>= conclude) fun i =>
      entryNode (n' i) >>= conclude := by
  have hbody : ∀ {K' : List Kind → Prop}, Reads n n' K' endsEntry false
      (.body <$> plainBody n >>= conclude) fun i => .body <$> plainBody (n' i) >>= conclude :=
    (takes_bodyEntry hle).reads.under fun _ _ => trivial
  have hexpr : ∀ {K' : List Kind → Prop}, Reads n n' K' endsEntry false
      (.expr <$> expression n >>= conclude) fun i => .expr <$> expression (n' i) >>= conclude :=
    ((takes_exprEntry hle (.inl rfl)).reads.under fun _ _ => trivial).idle
  simp only [entryNode_eq]
  refine Reads.choose (fun k => ?_) fun _ h => absurd rfl h
  cases k with
  | identifier => exact reads_nameEntry hle fun ks hks => hks.2
  | mark m =>
    cases m
    case define =>
      simp only [bind_map_left]
      exact ((reads_definition hle).andThen fun _ => takes_conclude_function _ _).idle
    all_goals first | exact hbody | exact hexpr
  | _ => exact hexpr

end Entries

theorem entry_eq (fuel : Nat) : entry fuel = (do
    advance
    if ← at? .endOfInput then pure none
    else
      enter "<Interactive>"
      entryNode fuel >>= conclude) := rfl

/-- A scan in which the end of input stands at the end only. -/
structure ProperScan (a : Token.Scan) : Prop where
  tokens : ∀ t ∈ a.tokens, t.kind ≠ .endOfInput
  ending : ∀ t, a.ending = .ok t → t.kind = .endOfInput

/-- Fetching the first token of a scan. -/
theorem fetch {a : Token.Scan} (ha : ProperScan a) :
    (∃ s : State, advance (.ofScan a) = .ok () s ∧ s.Proper ∧ s.left = a.tokens ∧
      s.ending = a.ending) ∨
    a.tokens = [] ∧ ∃ f, a.ending = .error f ∧
      advance (.ofScan a) = .error f.diagnostic (.ofScan a) := by
  cases ht : a.tokens with
  | cons t ts =>
    have htk : t.kind ≠ .endOfInput := ha.tokens t (by simp [ht])
    obtain ⟨s, hs, hc, has, he⟩ : ∃ s, advance (.ofScan a) = .ok () s ∧ s.current = t ∧
        s.ahead = ts ∧ s.ending = a.ending :=
      ⟨_, by rw [advance, show (State.ofScan a).ahead = t :: ts from ht], rfl, rfl, rfl⟩
    refine .inl ⟨s, hs, ⟨fun u hu => ha.tokens u ?_, fun u hu => ha.ending u (he ▸ hu), fun h => ?_⟩,
      by rw [State.left, hc, if_neg htk, has], he⟩
    · rw [ht, ← has]
      exact List.mem_cons_of_mem _ hu
    · exact absurd (hc ▸ h) htk
  | nil =>
    cases he : a.ending with
    | error f => exact .inr ⟨rfl, f, rfl, by simp [advance, State.ofScan, ht, he]⟩
    | ok e =>
      obtain ⟨s, hs, hc, has, hse⟩ : ∃ s, advance (.ofScan a) = .ok () s ∧ s.current = e ∧
          s.ahead = [] ∧ s.ending = a.ending :=
        ⟨{ (State.ofScan a).noteScan e with current := e, peeked := false, lastStop := {} },
          by rw [advance, show (State.ofScan a).ahead = [] from ht,
            show (State.ofScan a).ending = .ok e from he]; rfl, rfl, ht, rfl⟩
      refine .inl ⟨s, hs, ⟨fun u hu => ?_, fun u hu => ha.ending u (hse ▸ hu), fun _ => ⟨has, ?_⟩⟩,
        by rw [State.left, hc, if_pos (ha.ending e he)], hse.trans he⟩
      · rw [has] at hu
        cases hu
      · simp [State.clean, hse, he]

/-- An entry fetches the first token. If there is one, the rest of the entry follows. -/
theorem entry_apply {a : Token.Scan} (ha : ProperScan a) (fuel : Nat) :
    (∃ s : State, s.Proper ∧ s.left = a.tokens ∧ s.ending = a.ending ∧
      ((a.tokens = [] ∧ ∃ s', entry fuel (.ofScan a) = .ok none s') ∨
        a.tokens ≠ [] ∧ entry fuel (.ofScan a) = (entryNode fuel >>= conclude) s)) ∨
    a.tokens = [] ∧ ∃ f, a.ending = .error f ∧
      entry fuel (.ofScan a) = .error f.diagnostic (.ofScan a) := by
  rw [entry_eq, Step.bind_apply]
  obtain ⟨s, hs, hproper, hleft, he⟩ | ⟨hnil, f, hf, hs⟩ := fetch ha
  · rw [hs]
    dsimp only
    rw [Step.bind_apply, at?, Step.gets]
    dsimp only
    by_cases hk : s.current.kind = .endOfInput
    · have hnil : a.tokens = [] := by rw [← hleft, State.left, if_pos hk]
      exact .inl ⟨s, hproper, hleft, he, .inl ⟨hnil, s, by rw [hk]; rfl⟩⟩
    · have hne : a.tokens ≠ [] := by
        rw [← hleft, State.left, if_neg hk]
        exact List.cons_ne_nil _ _
      obtain ⟨_, s', hs', hss'⟩ := (quiet_enter "<Interactive>").alike s
      refine .inl ⟨s', hss'.proper hproper, hss'.left.trans hleft, hss'.ending.trans he,
        .inr ⟨hne, ?_⟩⟩
      rw [show (s.current.kind == .endOfInput) = false by simpa using hk]
      simp only [Bool.false_eq_true, if_false]
      rw [Step.bind_apply, hs']
  · exact .inr ⟨hnil, f, hf, by rw [hs]⟩

/-- A scan with the same tokens and then more, of the given kinds. After a fault there is nothing
more. -/
structure LongerScan (a : Token.Scan) (more : List Kind) (b : Token.Scan) : Prop where
  proper : ProperScan b
  kinds : b.tokens.map Token.kind = a.tokens.map Token.kind ++ more
  faulty : ∀ f, a.ending = .error f → more = [] ∧ ∃ f', b.ending = .error f'

namespace LongerScan

variable {a b : Token.Scan} {more : List Kind}

theorem length (h : LongerScan a more b) : b.tokens.length = a.tokens.length + more.length := by
  simpa using congrArg List.length h.kinds

theorem states (h : LongerScan a more b) {s t : State} (hs : s.left = a.tokens)
    (hse : s.ending = a.ending) (ht : t.Proper) (htl : t.left = b.tokens)
    (hte : t.ending = b.ending) : Extends s more t := by
  refine ⟨ht, by rw [State.kinds, State.kinds, hs, htl, h.kinds], fun hc => ?_⟩
  cases he : a.ending with
  | ok e => simp [State.clean, hse, he] at hc
  | error f =>
    obtain ⟨hmore, f', hf'⟩ := h.faulty f he
    exact ⟨hmore, by simp [State.clean, hte, hf']⟩

end LongerScan

section Scans

variable {a b : Token.Scan} {more : List Kind} {d : Diagnostic} {s : State}
  (ha : ProperScan a) (h : entry (a.tokens.length + 2) (.ofScan a) = .error d s)
include ha h

/-- An entry fails at once, with a fault in the first token, or after it. -/
theorem entry_fails :
    (a.tokens = [] ∧ ∃ f, a.ending = .error f ∧ d = f.diagnostic) ∨
    ∃ s₁ : State, s₁.left = a.tokens ∧ s₁.ending = a.ending ∧ a.tokens ≠ [] ∧
      Fails (fun b : { b : Token.Scan // a.tokens.length ≤ b.tokens.length } => b.1.tokens.length + 2)
        endsEntry (fun b => entryNode (b.1.tokens.length + 2) >>= conclude) s₁ d := by
  obtain ⟨s₁, hs, hsl, hse, ⟨-, s', hok⟩ | ⟨hne, hrest⟩⟩ | ⟨hnil, f, hf, herror⟩ :=
    entry_apply ha (a.tokens.length + 2)
  · rw [hok] at h
    cases h
  · rw [hrest] at h
    have hle : ∀ b : { b : Token.Scan // a.tokens.length ≤ b.tokens.length },
        a.tokens.length + 2 ≤ b.1.tokens.length + 2 := fun b => Nat.add_le_add_right b.2 2
    have hread := reads_entryNode hle s₁ hs (by simp [State.kinds, hsl, hne])
      (by simp [State.kinds, hsl])
    rw [h] at hread
    exact .inr ⟨s₁, hsl, hse, hne, hread⟩
  · rw [herror] at h
    cases h
    exact .inl ⟨hnil, f, hf, rfl⟩

/-- A failure at a token or in a literal stays, whatever follows. -/
theorem entry_persists (hd : d.isIncomplete = false) (hb : LongerScan a more b) :
    ∃ d' s', entry (b.tokens.length + 2) (.ofScan b) = .error d' s' := by
  have hlen := hb.length
  obtain ⟨t, ht, htl, hte, hbt⟩ | ⟨-, f', -, hbf⟩ := entry_apply hb.proper (b.tokens.length + 2)
  · obtain ⟨hnil, f, hf, -⟩ | ⟨s₁, hsl, hse, hne, hfails⟩ := entry_fails ha h
    · -- a fault in the first token is still there
      obtain ⟨rfl, f', hf'⟩ := hb.faulty f hf
      have hnil' : t.kinds = [] := by
        rw [State.kinds, htl, hb.kinds, hnil]
        rfl
      have hclean := (ht.ended ((State.Proper.kinds_eq_nil t).mp hnil')).2
      simp [State.clean, hte, hf'] at hclean
    · have hpos : 0 < a.tokens.length := List.length_pos_iff.mpr hne
      obtain ⟨d', t', hd'⟩ := (hfails.persists hd).2 more t ⟨b, by omega⟩
        (hb.states hsl hse ht htl hte) (by simp [State.kinds, htl])
      obtain ⟨hnil, -⟩ | ⟨-, hrest⟩ := hbt
      · rw [hnil, List.length_nil] at hlen
        omega
      · exact ⟨d', t', hrest.trans hd'⟩
  · exact ⟨_, _, hbf⟩

/-- A text that ended too early can be completed. -/
theorem entry_completes (hd : d.isIncomplete) :
    (∃ e, a.ending = .ok e) ∧ ∃ more, (∀ k ∈ more, k ∈ fillers) ∧
      ∀ b, LongerScan a more b → (∃ e, b.ending = .ok e) →
        ∃ v s', entry (b.tokens.length + 2) (.ofScan b) = .ok v s' := by
  obtain ⟨-, f, -, rfl⟩ | ⟨s₁, hsl, hse, hne, hfails⟩ := entry_fails ha h
  · rw [isIncomplete_fault] at hd
    cases hd
  · obtain ⟨hclean, hcomplete⟩ := hfails.completes hd
    obtain ⟨more, hmore, hrun⟩ := hcomplete (by simp [State.kinds, hsl, hne])
    refine ⟨?_, more, hmore, fun b hb hbe => ?_⟩
    · cases he : a.ending with
      | ok e => exact ⟨e, rfl⟩
      | error f => simp [State.clean, hse, he] at hclean
    · obtain ⟨e, he⟩ := hbe
      have hlen := hb.length
      have hpos : 0 < a.tokens.length := List.length_pos_iff.mpr hne
      obtain ⟨t, ht, htl, hte, ⟨hnil, -⟩ | ⟨-, hrest⟩⟩ | ⟨hnil, -⟩ :=
        entry_apply hb.proper (b.tokens.length + 2)
      · rw [hnil, List.length_nil] at hlen
        omega
      · have hext := hb.states hsl hse ht htl hte
        rw [← List.append_nil more] at hext
        obtain ⟨v, t', hv, -⟩ := hrun [] t ⟨b, by omega⟩ hext (by simp [State.clean, hte, he])
          (by decide) (by simp [State.kinds, htl])
        exact ⟨v, t', hrest.trans hv⟩
      · rw [hnil, List.length_nil] at hlen
        omega

end Scans

end Kotoba.Syntax
