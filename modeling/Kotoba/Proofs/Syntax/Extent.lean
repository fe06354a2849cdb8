import Kotoba.Proofs.Syntax.Exact

/-! The text of an expression. A production of expressions spans the text of just those tokens that
it takes in, from the first character of the first to the last one of the last. So it is all through
a program or an entry, where the tokens of each tree are among those of the tree around it, one child
after another. -/
namespace Kotoba

namespace Token

variable {text : List Char} {n e k l : Nat} {ts : List Token} {t u : Token}

/-- The first of some tokens that are laid out in a text, up to one of them. -/
theorem Laid.take (h : Laid text n ts e) (hl : ts[l]? = some u) :
    ∃ j, n ≤ j ∧ j < text.length ∧ u.stop = .past (text.take j) ∧
      Laid text n (ts.take (l + 1)) (j + 1) := by
  induction h generalizing l with
  | none => simp at hl
  | @more n i j e t ts hle hgap ht hts ih =>
    have hij := ht.le
    cases l with
    | zero =>
      cases hl
      exact ⟨j, by omega, ht.lt, ht.stop, .more hle hgap ht .none⟩
    | succ l =>
      obtain ⟨j', hj, hlt, hstop, hlaid⟩ := ih hl
      exact ⟨j', by omega, hlt, hstop, .more hle hgap ht hlaid⟩

/-- Some of the tokens that are laid out in a text, from one of them to another. They begin where
the first of them does. -/
theorem Laid.piece (h : Laid text n ts e) (hkl : k ≤ l) (hk : ts[k]? = some t)
    (hl : ts[l]? = some u) :
    ∃ i j, i ≤ j ∧ j < text.length ∧ t.start = .past (text.take i) ∧
      u.stop = .past (text.take j) ∧ Laid text i ((ts.drop k).take (l + 1 - k)) (j + 1) := by
  induction h generalizing k l with
  | none => simp at hk
  | @more n i j e t' ts hle _ ht hts ih =>
    cases k with
    | zero =>
      cases hk
      have hlaid : Laid text i (t :: ts) e :=
        .more (Nat.le_refl i) (by rw [Nat.sub_self]; exact .none) ht hts
      obtain ⟨j', hij, hlt, hstop, hpiece⟩ := hlaid.take hl
      exact ⟨i, j', hij, hlt, ht.start, hstop, hpiece⟩
    | succ k =>
      cases l with
      | zero => omega
      | succ l =>
        rw [List.drop_succ_cons, Nat.add_sub_add_right]
        exact ih (Nat.le_of_succ_le_succ hkl) hk hl

end Token

namespace Syntax

open Token (Scan Kind Lexeme tokenize)
open Kotoba.Syntax.Parser

variable {α β : Type} {a : Scan} (ha : Regular a)

/-- A production of statements in which every expression spans just its tokens. -/
abbrev GrantsStmt (a : Scan) (x : Parser Stmt) : Prop := Grants a (fun s => AllExact a (.stmt s)) x

/-- A production of bodies in which every expression spans just its tokens. -/
abbrev GrantsBody (a : Scan) (x : Parser Body) : Prop := Grants a (fun b => AllExact a (.body b)) x

theorem AllExact.stmt {s : Stmt} (h : ∀ m ∈ s.children, AllExact a m) : AllExact a (.stmt s) :=
  .of_children (by rintro _ ⟨⟩) h

theorem AllExact.body {ss : List Stmt} {span : Span} (h : ∀ s ∈ ss, AllExact a (.stmt s)) :
    AllExact a (.body ⟨ss, span⟩) :=
  .of_children (by rintro _ ⟨⟩) (by simpa using h)

theorem AllExact.statements {b : Body} (h : AllExact a (.body b)) :
    ∀ s ∈ b.statements, AllExact a (.stmt s) :=
  fun _ hs => h.child (List.mem_map_of_mem hs)

section Blocks

include ha in
theorem grants_jump {build : Span → Stmt} (hparts : ∀ span, (build span).children = []) :
    Grants a (fun ss => ∀ s ∈ ss, AllExact a (.stmt s)) (jump build) := by
  refine fun i => .here fun p hp => .andAdvance (.finish ha.known hp fun span _ => ?_)
  refine lays_skipSemicolon.bind fun j _ _ _ => .pure (List.forall_mem_singleton.mpr (.stmt ?_))
  rw [hparts]
  rintro _ ⟨⟩

include ha in
theorem grants_finalJump : Grants a (fun ss => ∀ s ∈ ss, AllExact a (.stmt s)) finalJump := by
  refine fun i => .kind fun k => ?_
  split
  · exact grants_jump ha (fun _ => rfl) i
  · exact grants_jump ha (fun _ => rfl) i
  · exact .pure (by rintro _ ⟨⟩)

variable {x : Parser Stmt} (hx : GrantsStmt a x) (fuel : Nat)
include hx

theorem grants_statements :
    Grants a (fun ss => ∀ s ∈ ss, AllExact a (.stmt s)) (statements x fuel) := by
  induction fuel with
  | zero => exact fun _ => .exhausted
  | succ fuel ih =>
    refine fun i => .kind fun k => ?_
    split
    · refine (hx i).bind fun j s _ hs => lays_skipSemicolon.bind fun k _ _ _ => ?_
      exact (ih k).bind fun l ss _ hss => .pure (List.forall_mem_cons.mpr ⟨hs, hss⟩)
    · exact .pure (by rintro _ ⟨⟩)

include ha

theorem grants_body (conditional : Bool) : GrantsBody a (body x fuel conditional) := by
  refine fun i => .enter (.here fun p hp => ?_)
  refine (grants_statements hx fuel i).bind fun j ss _ hss => ?_
  cases conditional with
  | false => exact .spanned ha.known hp fun span _ => .body (by simpa using hss)
  | true =>
    refine (grants_finalJump ha j).bind fun k js _ hjs => .spanned ha.known hp fun span _ => ?_
    exact .body (List.forall_mem_append.mpr ⟨hss, hjs⟩)

theorem grants_braced (conditional : Bool) : GrantsBody a (braced x fuel conditional) :=
  fun i => .mark ((grants_body ha hx fuel conditional (i + 1)).bind fun _ _ _ h => .mark (.pure h))

theorem grants_bracedOrSingle : GrantsBody a (bracedOrSingle x fuel) := by
  refine fun i => .test (grants_braced ha hx fuel false i) (.here fun p hp => .kind fun k => ?_)
  split
  · refine (hx i).bind fun j s _ hs => .mark (.spanned ha.known hp fun span _ => .body ?_)
    exact List.forall_mem_singleton.mpr hs
  · exact .unexpected _

end Blocks

section Statements

variable {x y : Parser Expr} (hx : GrantsExpr a x) (hy : GrantsExpr a y) (fuel : Nat)
include hx

theorem grants_pair :
    Grants a (fun v => AllExact a (.expr v.1) ∧ AllExact a (.expr v.2)) (pair x) :=
  fun _ => .mark ((hx _).bind fun _ _ _ he => .mark ((hx _).bind fun _ _ _ hf =>
    .mark (.pure ⟨he, hf⟩)))

theorem grants_elements :
    Grants a (fun es => ∀ e ∈ es, AllExact a (.expr e)) (elements x fuel) := by
  induction fuel with
  | zero => exact fun _ => .exhausted
  | succ fuel ih =>
    refine fun i => .test (.pure (by rintro _ ⟨⟩)) ((hx i).bind fun j e _ he => .test ?_ ?_)
    · exact .andAdvance ((ih (j + 1)).bind fun k es _ hes =>
        .pure (List.forall_mem_cons.mpr ⟨he, hes⟩))
    · exact .pure (List.forall_mem_singleton.mpr he)

include ha

theorem grants_giveBack : GrantsStmt a (giveBack x) := by
  have hvalue : ∀ i, Lays a i (some <$> x) fun _ v => ∀ e ∈ v, AllExact a (.expr e) := fun i =>
    (hx i).map fun _ _ _ h => by simpa using h
  rw [giveBack_eq]
  refine fun i => .here fun p hp => .andAdvance (.bind (P := fun _ v => ∀ e ∈ v,
    AllExact a (.expr e)) (.kind fun k => ?_) fun j v _ hv =>
      .spanned ha.known hp fun span _ => .stmt (by simpa using hv))
  split
  · refine .test (.peek fun k => ?_) (hvalue (i + 1))
    split
    · exact .pure (by rintro _ ⟨⟩)
    · exact hvalue (i + 1)
  · exact .pure (by rintro _ ⟨⟩)

theorem grants_assignment : GrantsStmt a (assignment x) := by
  refine fun i => .here fun p hp => .name ha fun target htarget => .mark ?_
  refine (hx _).bind fun j e _ he => .spanned ha.known hp fun span _ => .stmt ?_
  simpa using ⟨htarget, he⟩

omit hx in
theorem grants_advancement (op : Op) : GrantsStmt a (advancement op) := by
  refine fun i => .here fun p hp => .name ha fun target htarget => .bind (P := fun _ _ => True) ?_
    fun j o _ _ => .spanned ha.known hp fun span _ => .stmt ?_
  · exact .current fun t _ => .andAdvance (.pure trivial)
  · simpa using ⟨htarget, allExact_operator a o⟩

include hy in
theorem grants_declaration : GrantsStmt a (declaration x y fuel) := by
  refine fun i => .here fun p hp => .name ha fun target htarget => .mark (.kind fun k => ?_)
  split
  · refine .andAdvance ((hy _).bind fun j e _ he => .mark (.spanned ha.known hp fun span _ => ?_))
    exact .stmt (by simpa using ⟨htarget, he⟩)
  · refine .andAdvance ((grants_elements hx fuel _).bind fun j es _ hes => .mark ?_)
    refine .spanned ha.known hp fun span _ => .stmt (List.forall_mem_cons.mpr ⟨htarget, ?_⟩)
    simpa using hes
  · refine .andAdvance ((grants_pair hx _).bind fun j v _ hv => ?_)
    refine .spanned ha.known hp fun span _ => .stmt ?_
    simpa using ⟨htarget, hv⟩
  · refine .andAdvance ((grants_pair hx _).bind fun j v _ hv => ?_)
    refine .spanned ha.known hp fun span _ => .stmt ?_
    simpa using ⟨htarget, hv⟩
  · exact .unexpected _

theorem grants_updateOf {slot : Ident × Expr × Span} {p : Position} {i j : Nat}
    (hp : Starts a i p) (hslot : AllExact a (slotNode slot)) :
    Lays a j (updateOf x slot p) fun _ s => AllExact a (.stmt s) := by
  refine .mark ((hx _).bind fun k e _ he => .spanned ha.known hp fun span _ => .stmt ?_)
  simpa [slotNode] using ⟨hslot, he⟩

theorem grants_print (newline : Bool) : GrantsStmt a (print x fuel newline) := by
  refine fun i => .here fun p hp => .andAdvance ?_
  refine (grants_arguments hx fuel _).bind fun j es _ hes => .spanned ha.known hp fun span _ => ?_
  exact .stmt (by simpa using hes)

theorem grants_writeFile (newline : Bool) : GrantsStmt a (writeFile x newline) := by
  refine fun i => .here fun p hp => .andAdvance (.mark (.name ha fun file hfile => .mark ?_))
  refine (hx _).bind fun j e _ he => .mark (.spanned ha.known hp fun span _ => .stmt ?_)
  simpa using ⟨hfile, he⟩

variable {b : Parser Body} (hb : GrantsBody a b)
include hb

theorem grants_loop : GrantsStmt a (loop x b) := by
  refine fun i => .enter (.here fun p hp => .andAdvance (.inParens (hx _) fun j e _ he => ?_))
  refine (hb _).bind fun k body _ hbody => .spanned ha.known hp fun span _ => .stmt ?_
  simpa using ⟨he, hbody⟩

theorem grants_range : GrantsStmt a (range x b) := by
  refine fun i => .enter (.here fun p hp => .andAdvance (.name ha fun counter hcounter => .mark ?_))
  refine (grants_pair hx _).bind fun j v _ hv => (hb _).bind fun k body _ hbody => ?_
  refine .spanned ha.known hp fun span _ => .stmt ?_
  simpa using ⟨hcounter, hv.1, hv.2, hbody⟩

theorem grants_orWhens :
    Grants a (fun branches => ∀ w ∈ branches, AllExact a (.orWhen w)) (orWhens x b fuel) := by
  induction fuel with
  | zero => exact fun _ => .exhausted
  | succ fuel ih =>
    refine fun i => .test (.here fun p hp => .andAdvance (.inParens (hx _) fun j e _ he => ?_))
      (.pure (by rintro _ ⟨⟩))
    refine (hb _).bind fun k body _ hbody => .finish ha.known hp fun span _ => ?_
    refine (ih k).bind fun l others _ hothers => .pure (List.forall_mem_cons.mpr ⟨?_, hothers⟩)
    exact .of_children (by rintro _ ⟨⟩) (by simpa using ⟨he, hbody⟩)

omit hx in
theorem grants_otherwise :
    Grants a (fun last => ∀ o ∈ last, AllExact a (.otherwise o)) (otherwise b) := by
  refine fun i => .test (.here fun p hp => .andAdvance ?_) (.pure (by rintro _ ⟨⟩))
  refine (hb _).bind fun j body _ hbody => .spanned ha.known hp fun span _ => ?_
  rintro _ ⟨⟩
  exact .of_children (by rintro _ ⟨⟩) (by simpa using hbody)

theorem grants_conditional : GrantsStmt a (conditional x b fuel) := by
  refine fun i => .enter (.here fun p hp => .andAdvance (.inParens (hx _) fun j e _ he => ?_))
  refine (hb _).bind fun k body _ hbody => ?_
  refine (grants_orWhens ha hx fuel hb k).bind fun l others _ hothers => ?_
  refine (grants_otherwise ha hb l).bind fun m last _ hlast => ?_
  refine .spanned ha.known hp fun span _ => .stmt ?_
  have hmore : ∀ n ∈ others.map Node.orWhen ++ (last.map Node.otherwise).toList,
      AllExact a n := by
    refine List.forall_mem_append.mpr ⟨by simpa using hothers, ?_⟩
    cases last with
    | none => rintro _ ⟨⟩
    | some o => simpa using hlast
  refine List.forall_mem_cons.mpr ⟨he, List.forall_mem_append.mpr ⟨?_, hmore⟩⟩
  simpa using hbody

end Statements

section Actions

include ha

/-- Tokens that stand for an action stand for an expression. -/
theorem grants_action {x : Parser Expr} {i : Nat} {K : List Lexeme → Prop} (hx : Framing a x)
    (hy : Yields K x (Derives .loose .action))
    (hK : K (a.saidFrom i)) :
    Lays a i (.expr <$> x) fun _ s => AllExact a (.stmt s) := by
  have hne : ∀ e : Expr, ¬ Derives .loose .action [] e := fun _ h => h.ne_nil rfl rfl
  refine ((hx i).standing ha hy hK hne).map fun j e _ h => .stmt ?_
  have hfactor := h.mono (Q := Derives .loose .factor) fun _ _ => .action
  exact List.forall_mem_singleton.mpr hfactor.ofFactor.ofProduct.ofSum.allExact

/-- The tokens of an array with an index stand for that element. -/
theorem standing_slot {y : Parser Expr} (hy : GrantsExpr a y) (hby : Builds .sum y) (i : Nat) :
    Lays a i (slot y) fun j v =>
      Stands a (Derives .loose .factor) i j (.element v.1 v.2.1 v.2.2) := by
  have hyields := yields_slot (K := fun _ => True) hby
  refine ((framing_slot ha hy i).taking ha hyields trivial ?_).mono ?_
  · rintro v ⟨us, -, hnil⟩
    cases hnil
  · rintro j ⟨array, index, span⟩ - ⟨hframed, hij, hj, us, hindex, hsaid⟩
    refine ⟨hij, hj, hframed, ?_⟩
    rw [hsaid]
    exact .element array span hindex

end Actions

section Statements

variable {x y : Parser Expr} (hx : GrantsExpr a x) (hbx : Builds .expr x) (hy : GrantsExpr a y)
  (hby : Builds .sum y) (fuel : Nat)
include ha hx hbx hy hby

theorem grants_nameStatement : GrantsStmt a (nameStatement x y fuel) := by
  refine fun i => .peek fun k => ?_
  split
  · exact grants_assignment ha hx i
  · exact grants_advancement ha _ i
  · exact grants_advancement ha _ i
  · exact grants_action (K := fun _ => True) ha (framing_call ha hx fuel) (builds_call hbx fuel _)
      trivial
  · exact grants_declaration ha hx hy fuel i
  · refine .here fun p hp => (standing_slot ha hy hby i).bind fun _ _ _ h => ?_
    exact grants_updateOf ha hx hp h.ofFactor.ofProduct.ofSum.allExact
  · exact .andAdvance (.unexpected _)

theorem grants_statementWith {b : Parser Body} (hb : GrantsBody a b) :
    GrantsStmt a (statementWith x y b fuel) := by
  refine fun i => .enter (.gets fun s hs => ?_)
  -- a word that begins a statement is the first of the tokens that are left
  have hfront : ∀ m : Mark, s.current.kind = .mark m → front (a.saidFrom i) = .of m := by
    intro m hm
    rw [← hs.lexemes ha, ← said_current]
    exact said_of_kind_mark hm
  split
  case h_1 => exact grants_nameStatement ha hx hbx hy hby fuel i
  case h_2 => exact grants_giveBack ha hx i
  case h_3 => exact grants_loop ha hx hb i
  case h_4 => exact grants_range ha hx hb i
  case h_5 => exact grants_conditional ha hx fuel hb i
  case h_6 | h_7 => exact grants_print ha hx fuel _ i
  case h_8 =>
    exact grants_action (K := fun _ => True) ha (framing_inputLine ha) (builds_inputLine _) trivial
  case h_9 =>
    refine .here fun p hp => .andAdvance (.inParens (grants_expectName ha _) ?_)
    refine fun j file _ hfile => .spanned ha.known hp fun span _ => .stmt ?_
    simpa using hfile
  case h_10 hk =>
    exact grants_action (K := fun ls => front ls = .of .readFile) ha (framing_readFile ha hx)
      (builds_readFile hbx fun _ h => h) (hfront _ hk)
  case h_11 hk =>
    exact grants_action (K := fun ls => front ls = .of .readLine) ha
      (framing_fileVerb ha (fun _ _ => rfl) fun _ _ => rfl)
      (yields_fileVerb (fun _ h => h) _ fun file span => .readLine file span) (hfront _ hk)
  case h_12 | h_13 => exact grants_writeFile ha hx _ i
  case h_14 => exact .unexpected _

end Statements

section Wholes

include ha

theorem grants_statement (fuel : Nat) : GrantsStmt a (statement fuel) := by
  induction fuel with
  | zero => exact fun _ => .exhausted
  | succ fuel ih =>
    exact grants_statementWith ha (grants_expression ha fuel) (builds_expression fuel)
      (grants_sumExpr ha fuel) (builds_sumExpr fuel) fuel (grants_braced ha ih fuel true)

theorem grants_definition (fuel : Nat) :
    Grants a (fun f => AllExact a (.function f)) (definition fuel) := by
  have hparams : Grants a (fun ps => ∀ p ∈ ps, AllExact a (Ident.node p))
      (optionalParameters fuel) := by
    refine fun i => .test ?_ (.pure (by rintro _ ⟨⟩))
    rw [parameters_eq]
    refine .mark (.bind (P := fun _ ps => ∀ p ∈ ps, AllExact a (Ident.node p)) ?_
      fun j ps _ hps => .mark (.pure hps))
    exact .test (grants_commaList (grants_expectName ha) fuel (i + 1)) (.pure (by rintro _ ⟨⟩))
  rw [definition_eq]
  refine fun i => .enter (.here fun p hp => .mark (.name ha fun name hname => ?_))
  refine (hparams _).bind fun j params _ hparams => .mark ?_
  refine (grants_bracedOrSingle ha (grants_statement ha fuel) fuel _).bind fun k b _ hb => ?_
  refine .spanned ha.known hp fun span _ => .of_children (by rintro _ ⟨⟩) ?_
  refine List.forall_mem_cons.mpr ⟨hname, List.forall_mem_append.mpr ⟨by simpa using hparams, ?_⟩⟩
  simpa using hb

theorem grants_definitions (n fuel : Nat) :
    Grants a (fun fs => ∀ f ∈ fs, AllExact a (.function f)) (definitions (definition n) fuel) := by
  induction fuel with
  | zero => exact fun _ => .exhausted
  | succ fuel ih =>
    refine fun i => .test ?_ (.pure (by rintro _ ⟨⟩))
    refine (grants_definition ha n i).bind fun j f _ hf => (ih j).bind fun k fs _ hfs => ?_
    exact .pure (List.forall_mem_cons.mpr ⟨hf, hfs⟩)

theorem grants_programParts (fuel : Nat) :
    Grants a (fun v => (∀ f ∈ v.1, AllExact a (.function f)) ∧ AllExact a (.body v.2))
      (programParts fuel) := by
  refine fun i => .enter ((grants_definitions ha fuel fuel i).bind fun j fs _ hfs => ?_)
  refine (lays_expectAll _).bind fun k _ _ _ => ?_
  refine (grants_bracedOrSingle ha (grants_statement ha fuel) fuel k).bind fun l b _ hb => ?_
  exact .pure ⟨hfs, hb⟩

theorem grants_slotEntry (fuel : Nat) : Grants a (AllExact a) (slotEntry fuel) := by
  refine fun i => .here fun p hp => ?_
  refine (standing_slot ha (grants_sumExpr ha fuel) (builds_sumExpr fuel) i).bind fun j v _ hv => ?_
  refine .test ?_ ?_
  · have hslot : AllExact a (slotNode v) := hv.ofFactor.ofProduct.ofSum.allExact
    refine (grants_updateOf ha (grants_expression ha fuel) hp hslot).bind fun k s _ hs => ?_
    refine lays_skipSemicolon.bind fun l _ _ _ => ?_
    refine (grants_body ha (grants_statement ha fuel) fuel false l).bind fun m b _ hb => ?_
    exact .spanned ha.known hp fun span _ => .body (List.forall_mem_cons.mpr ⟨hs, hb.statements⟩)
  · exact (standing_comparisonAfter ha (standing_factor ha fuel) fuel hp hv).map fun _ _ _ h =>
      h.allExact

theorem grants_entryNode (fuel : Nat) : Grants a (AllExact a) (entryNode fuel) := by
  intro i
  have hbody : Lays a i (.body <$> plainBody fuel) fun _ n => AllExact a n :=
    (grants_body ha (grants_statement ha fuel) fuel false i).map fun _ _ _ h => h
  have hexpr : Lays a i (.expr <$> expression fuel) fun _ n => AllExact a n :=
    (grants_expression ha fuel i).map fun _ _ _ h => h
  refine .kind fun k => ?_
  split
  · exact (grants_definition ha fuel i).map fun _ _ _ h => h
  · refine .peek fun k => ?_
    split
    case h_5 => exact grants_slotEntry ha fuel i
    case h_6 => exact hexpr
    all_goals exact hbody
  · split
    · exact hbody
    · exact hexpr

end Wholes

section Texts

variable {limits : Token.Limits} {text : Bytes}

theorem StandsFor.allExact {n : Node} (h : StandsFor limits text n) :
    AllExact (tokenize limits text) n := by
  have ha := regular_tokenize limits text
  let fuel := (tokenize limits text).tokens.length + 2
  obtain ⟨p, s, hp, rfl⟩ | ⟨s, hn⟩ := h
  · obtain ⟨s₁, hfetch, hprogram⟩ := parseProgram_cases hp
    obtain ⟨-, -, hat⟩ := fetched_text hfetch
    obtain ⟨-, rfl⟩ | ⟨fs, b, s₂, hparts, -, -, rfl⟩ := fetchedProgram_cases hprogram
    · exact .of_children (by rintro _ ⟨⟩) (by rintro _ ⟨⟩)
    · have hgoes := grants_programParts ha fuel 0 s₁ hat
      rw [hparts] at hgoes
      obtain ⟨-, -, hfs, hb⟩ := hgoes
      refine .of_children (by rintro _ ⟨⟩) (List.forall_mem_append.mpr ⟨by simpa using hfs, ?_⟩)
      simpa using hb
  · obtain ⟨s₁, s₂, hat, hnode⟩ := entryNode_of_parseEntry hn
    have hgoes := grants_entryNode ha fuel 0 s₁ hat
    rw [hnode] at hgoes
    obtain ⟨-, -, hall⟩ := hgoes
    exact hall

/-- The span of a stretch of tokens tells which stretch it is. -/
theorem Spans.unique {k l k' l' : Nat} {span : Span} (h : Spans (tokenize limits text) k l span)
    (h' : Spans (tokenize limits text) k' l' span) (hkl : k < l) (hkl' : k' < l')
    (hl' : l' ≤ (tokenize limits text).tokens.length) : k = k' ∧ l = l' := by
  obtain ⟨t, ht, hstart⟩ := h.starts
  obtain ⟨t', ht', hstart'⟩ := h'.starts
  obtain ⟨hl, -⟩ | ⟨u, -, hu, hstop⟩ := h.stops
  · omega
  obtain ⟨hl, -⟩ | ⟨u', -, hu', hstop'⟩ := h'.stops
  · omega
  constructor
  · obtain hlt | heq | hlt := Nat.lt_trichotomy k k'
    · have hbefore := Token.span_before ht ht' hlt (by omega)
      exact absurd (hstart.symm.trans hstart') (hbefore _ _ (.inl rfl) (.inl rfl)).ne
    · exact heq
    · have hbefore := Token.span_before ht' ht hlt (by omega)
      exact absurd (hstart'.symm.trans hstart) (hbefore _ _ (.inl rfl) (.inl rfl)).ne
  · obtain hlt | heq | hlt := Nat.lt_trichotomy (l - 1) (l' - 1)
    · have hbefore := Token.span_before hu hu' hlt (by omega)
      exact absurd (hstop.symm.trans hstop') (hbefore _ _ (.inr rfl) (.inr rfl)).ne
    · omega
    · have hbefore := Token.span_before hu' hu hlt (by omega)
      exact absurd (hstop'.symm.trans hstop) (hbefore _ _ (.inr rfl) (.inr rfl)).ne

/-- Where an expression stands in a text. The tokens from number `k` on and before number `l`, none
of which is a semicolon, stand for it. They are what is written from character `i` to character `j`,
and the span goes from the start of the first of them to the end of the last. -/
structure Extent (limits : Token.Limits) (text : Bytes) (e : Expr) (k l i j : Nat) : Prop where
  first : ∃ t, (tokenize limits text).tokens[k]? = some t ∧ e.span.start = t.start
  last : ∃ t, (tokenize limits text).tokens[l - 1]? = some t ∧ e.span.stop = t.stop
  derived : k < l ∧ Derives .loose .expr ((tokenize limits text).said k l) e
  unended : ∀ t ∈ (tokenize limits text).slice k l, t.kind ≠ .mark .semicolon
  start : e.span.start = .past (text.chars.take i)
  stop : e.span.stop = .past (text.chars.take j)
  written : i ≤ j ∧ j < text.chars.length ∧
    Token.Laid text.chars i ((tokenize limits text).slice k l) (j + 1)

/-- An expression that spans just the tokens it is derived from has these for its extent. -/
theorem exists_extent {e : Expr} {k l : Nat} (hkl : k < l)
    (hl : l ≤ (tokenize limits text).tokens.length) (hspan : Spans (tokenize limits text) k l e.span)
    (hderived : Derives .loose .expr ((tokenize limits text).said k l) e) :
    ∃ i j, Extent limits text e k l i j := by
  have ha := regular_tokenize limits text
  obtain ⟨t, ht, hstart⟩ := hspan.starts
  obtain ⟨rfl, -⟩ | ⟨u, -, hu, hstop⟩ := hspan.stops
  · omega
  have hget : ∀ {m : Nat} {v : Token}, m < l → (tokenize limits text).token? m = some v →
      (tokenize limits text).tokens[m]? = some v := by
    intro m v hm hv
    obtain ⟨hget, -⟩ | ⟨hlength, -⟩ := ha.token_cases hv
    · exact hget
    · omega
  have hfirst := hget hkl ht
  have hlast := hget (by omega) hu
  obtain ⟨_, hlaid, -⟩ := Token.laid_tokenize limits text
  obtain ⟨i, j, hij, hj, hi, hj', hpiece⟩ := hlaid.piece (Nat.le_sub_one_of_lt hkl) hfirst hlast
  rw [show l - 1 + 1 = l by omega] at hpiece
  refine ⟨i, j, ⟨t, hfirst, hstart⟩, ⟨u, hlast, hstop⟩, ⟨hkl, hderived⟩, ?_,
    hstart.trans hi, hstop.trans hj', hij, hj, hpiece⟩
  intro v hv hsemicolon
  refine hderived.mark_not_mem (.inr rfl) rfl (List.mem_map.mpr ⟨_, List.mem_map_of_mem hv, ?_⟩)
  rw [Lexeme.kind_said]
  exact hsemicolon

theorem Stands.exists_extent {P : List Lexeme → Expr → Prop} {k l : Nat} {e : Expr}
    (h : Stands (tokenize limits text) P k l e)
    (hP : ∀ ts e, P ts e → Derives .loose .expr ts e) : ∃ i j, Extent limits text e k l i j :=
  Syntax.exists_extent h.order h.within h.framed.span (hP _ _ h.derived)

/-- Trees that are written one after another, with tokens from number `i` on and before number `j`.
Each takes a stretch of them, which its span tells, and in which its children are written one after
another; and if it is an expression, that stretch is its extent. Only a tree that has nothing in it
takes no token. -/
inductive Written (limits : Token.Limits) (text : Bytes) : Nat → Nat → List Node → Prop
  | nil {i j : Nat} (order : i ≤ j) : Written limits text i j []
  | cons {i j k l m : Nat} {n : Node} {rest : List Node} (before : i ≤ k) (behind : l ≤ m)
      (blank : k = l → n.isBlank) (span : Spans (tokenize limits text) k l n.span)
      (extent : ∀ e, n = .expr e → ∃ first last, Extent limits text e k l first last)
      (inner : Written limits text k l n.children) (after : Written limits text m j rest) :
      Written limits text i j (n :: rest)

/-- The extent of an expression is the stretch of tokens that it spans. -/
theorem Stretches.exists_extent {k l : Nat} {e : Expr}
    (h : Stretches (tokenize limits text) k l (.expr e))
    (he : AllExact (tokenize limits text) (.expr e)) : ∃ i j, Extent limits text e k l i j := by
  have hkl : k < l := Nat.lt_of_le_of_ne h.order fun hkl => Bool.false_ne_true (h.blank hkl)
  obtain ⟨k', l', hkl', hl', hspan', hderived⟩ := he.here
  obtain ⟨rfl, rfl⟩ := h.span.unique hspan' hkl hkl' hl'
  exact Syntax.exists_extent hkl' hl' hspan' hderived

/-- Where all expressions span just their tokens, trees are written where they lie. -/
theorem Lies.written {i j : Nat} {ns : List Node} (h : Lies (tokenize limits text) i j ns)
    (hns : ∀ n ∈ ns, AllExact (tokenize limits text) n) : Written limits text i j ns := by
  induction h with
  | nil order => exact .nil order
  | @cons i j k l m n rest before order behind blank known span inner _ ihInner ihAfter =>
    obtain ⟨hn, hrest⟩ := List.forall_mem_cons.mp hns
    have hstretches : Stretches (tokenize limits text) k l n :=
      ⟨order, fun hkl => (blank hkl).1, known, span, inner⟩
    refine .cons before behind hstretches.blank span ?_ (ihInner fun c hc => hn.child hc)
      (ihAfter hrest)
    rintro e rfl
    exact hstretches.exists_extent hn

theorem Stretches.written {k l : Nat} {n : Node} (h : Stretches (tokenize limits text) k l n)
    (hn : AllExact (tokenize limits text) n) : Written limits text k l [n] := by
  refine .cons (Nat.le_refl k) (Nat.le_refl l) h.blank h.span ?_
    (h.inner.written fun c hc => hn.child hc) (.nil (Nat.le_refl l))
  rintro e rfl
  exact h.exists_extent hn

namespace Written

variable {i j : Nat} {n : Node} {ns : List Node}

/-- Each of the trees is written by itself. -/
theorem single (h : Written limits text i j ns) (hn : n ∈ ns) :
    ∃ k l, Written limits text k l [n] := by
  induction h with
  | nil => cases hn
  | @cons _ _ k l m _ _ _ _ blank span extent inner _ _ ih =>
    obtain _ | ⟨_, hn⟩ := hn
    · exact ⟨k, l, .cons (Nat.le_refl k) (Nat.le_refl l) blank span extent inner
        (.nil (Nat.le_refl l))⟩
    · exact ih hn

/-- And so is every part of them. -/
theorem part {root : Node} (h : Written limits text i j [root]) (hn : root.Part n) :
    ∃ k l, Written limits text k l [n] := by
  induction hn with
  | self => exact ⟨i, j, h⟩
  | child _ hc ih =>
    obtain ⟨k, l, hwritten⟩ := ih
    cases hwritten with
    | cons _ _ _ _ _ inner => exact inner.single hc

/-- Every expression in a tree has an extent. -/
theorem exists_extent {root : Node} {e : Expr} (h : Written limits text i j [root])
    (he : root.Part (.expr e)) : ∃ k l first last, Extent limits text e k l first last := by
  obtain ⟨k, l, hwritten⟩ := h.part he
  cases hwritten with
  | @cons _ _ k l _ _ _ _ _ _ _ extent =>
    obtain ⟨first, last, hextent⟩ := extent e rfl
    exact ⟨k, l, first, last, hextent⟩

end Written

/-- In a tree that a text stands for, every expression spans the text of exactly the tokens that
stand for it, where it is written: within the tree around it, after what comes before it and before
what comes after it. For whatever production of expressions is run, from any token of the text on,
the tokens that it takes in are the extent of its result. -/
theorem expression_extent {root : Node} (h : StandsFor limits text root) :
    (∃ k l, Written limits text k l [root]) ∧
    ∀ fuel, ∀ x ∈ [factor fuel, product (factor fuel) fuel, sum (factor fuel) fuel,
        expression fuel],
      ∀ k s e s', At (tokenize limits text) k s → x s = .ok e s' →
        ∃ l, At (tokenize limits text) l s' ∧ ∃ i j, Extent limits text e k l i j := by
  have ha := regular_tokenize limits text
  refine ⟨?_, fun fuel x hx k s e s' hs hrun => ?_⟩
  · have hexact := h.allExact
    obtain ⟨-, _, k, l, -, -, hstretches⟩ := h.rests
    exact ⟨k, l, hstretches.written hexact⟩
  · have hrange : ∀ {P : List Lexeme → Expr → Prop} {x : Parser Expr},
        Standing (tokenize limits text) P x → (∀ ts e, P ts e → Derives .loose .expr ts e) →
        x s = .ok e s' →
        ∃ l, At (tokenize limits text) l s' ∧ ∃ i j, Extent limits text e k l i j := by
      intro P x hx hP hrun
      have hgoes := hx k s hs
      rw [hrun] at hgoes
      cases hgoes with
      | @ok l _ _ _ hs' hstands => exact ⟨l, hs', hstands.exists_extent hP⟩
    simp only [List.mem_cons, List.not_mem_nil, or_false] at hx
    obtain rfl | rfl | rfl | rfl := hx
    · exact hrange (standing_factor ha fuel) (fun _ _ h => .ofSum (.ofProduct (.ofFactor h))) hrun
    · exact hrange (standing_product ha (standing_factor ha fuel) fuel)
        (fun _ _ h => .ofSum (.ofProduct h)) hrun
    · exact hrange (standing_sum ha (standing_factor ha fuel) fuel) (fun _ _ => .ofSum) hrun
    · exact hrange (standing_expression ha fuel) (fun _ _ h => h) hrun

/-- The left operand of what a list of statements begins by assigning, if it is in parentheses. -/
private def firstGroup? : Node → Option Expr
  | .body ⟨.assign _ (.binary _ (.group e span) _ _ _) _ :: _, _⟩ => some (.group e span)
  | _ => none

private theorem part_of_firstGroup {n : Node} {e : Expr} (h : firstGroup? n = some e) :
    n.Part (.expr e) := by
  unfold firstGroup? at h
  split at h
  · next target layer e span op right whole statement ss b =>
    cases h
    have hvalue : (Node.stmt (.assign target (.binary layer (.group e span) op right whole)
        statement)).Part (.expr (.group e span)) :=
      (Node.Part.self.child (.tail _ (.head _))).child (.head _)
    exact hvalue.of_child (.head _)
  · cases h

/-- An expression in parentheses, with a name before it and an operator after it. -/
theorem expression_extent_group :
    let text : Bytes := "x = (a[i] + f(2)) == 3; y = 1"
    ∃ root e k l i j, StandsFor {} text root ∧ root.Part (.expr e) ∧
      e.span = ⟨⟨1, 5⟩, ⟨1, 17⟩⟩ ∧ Extent {} text e k l i j := by
  intro text
  have hcheck : ((entryOf? {} text).bind fun root => (firstGroup? root).map fun e =>
      decide (e.span = ⟨⟨1, 5⟩, ⟨1, 17⟩⟩)) = some true := by
    decide +kernel
  obtain ⟨root, hroot, hcheck⟩ := Option.bind_eq_some_iff.mp hcheck
  obtain ⟨e, he, hspan⟩ := Option.map_eq_some_iff.mp hcheck
  have hstands : StandsFor {} text root := .inr (entryOf?_eq_some.mp hroot)
  have hpart : root.Part (.expr e) := part_of_firstGroup he
  obtain ⟨⟨_, _, hwritten⟩, -⟩ := expression_extent hstands
  obtain ⟨k, l, i, j, hextent⟩ := hwritten.exists_extent hpart
  exact ⟨root, e, k, l, i, j, hstands, hpart, of_decide_eq_true hspan, hextent⟩

end Texts

end Syntax

end Kotoba
