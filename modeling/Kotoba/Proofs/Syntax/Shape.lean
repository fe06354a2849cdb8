import Kotoba.Proofs.Syntax.Whole

/-! Trees that are parsed are well formed. Operators stand in their layer, between operands of the
layers that bind more strongly; jumps stand where a loop or a conditional ends; and no part is
missing that has to be there. -/
namespace Kotoba

/-- The layer that an expression is a node of, if any. -/
def Expr.ownLayer? : Expr → Option Layer
  | .binary layer .. | .single layer .. => some layer
  | _ => none

namespace Layer

/-- The operators of a layer. -/
def ops : Layer → List Op
  | relational => [.eq, .ne, .lt, .le, .gt, .ge]
  | additive => [.add, .sub, .or]
  | multiplicative => [.mul, .div, .mod, .and]

/-- The layers of which a left operand may be a node. -/
def lefts : Layer → List (Option Layer)
  | relational | additive => [none, some multiplicative, some additive]
  | multiplicative => [none, some multiplicative]

/-- The layers of which a right operand may be a node. -/
def rights : Layer → List (Option Layer)
  | relational => [none, some multiplicative, some additive]
  | additive => [none, some multiplicative]
  | multiplicative => [none]

end Layer

/-- Whether a statement leaves or continues a loop. -/
def Stmt.isJump : Stmt → Bool
  | .leave _ | .proceed _ => true
  | _ => false

/-- Whether a body has no jumps among its statements. -/
def Body.isPlain (b : Body) : Bool := b.statements.all fun s => !s.isJump

/-- What has to be true of an expression by itself: it applies an operator, of its layer and to
operands of such layers as may stand there; integers are not negative; and an index does not
compare. -/
def Expr.isWellFormed : Expr → Bool
  | .int value _ => 0 ≤ value
  | .unary op _ _ => op.op ∈ [.not, .sub]
  | .binary layer left op right _ =>
    op.op ∈ layer.ops ∧ left.ownLayer? ∈ layer.lefts ∧ right.ownLayer? ∈ layer.rights
  | .single .. => false
  | .element _ index _ => index.ownLayer? ≠ some .relational
  | _ => true

/-- What has to be true of a statement by itself: no body is missing, and a size does not compare. -/
def Stmt.isWellFormed : Stmt → Bool
  | .when _ body _ _ _ | .loop _ body _ | .range _ _ _ body _ => body.isSome
  | .advance _ op _ => op.op ∈ [.inc, .dec]
  | .allocate _ size _ => size.ownLayer? ≠ some .relational
  | _ => true

namespace Node

/-- What has to be true of a tree by itself. A jump may only end a body, and not that of a program
or a function; a program without a body has nothing in it. -/
def isWellFormed : Node → Bool
  | program p =>
    match p.body with
    | some b => b.isPlain
    | none => p.functions.isEmpty
  | function f => f.body.any Body.isPlain
  | body b => b.statements.dropLast.all fun s => !s.isJump
  | stmt s => s.isWellFormed
  | expr e => e.isWellFormed
  | orWhen branch => branch.body.isSome
  | otherwise branch => branch.body.isSome
  | operator _ => true

/-- A tree of which all parts are as they have to be. -/
def WellFormed (n : Node) : Prop := n.Every fun m => m.isWellFormed

namespace WellFormed

theorem of {n : Node} (hn : n.isWellFormed) (hc : ∀ m ∈ n.children, m.WellFormed) :
    n.WellFormed := .node hn hc

@[simp] theorem ident (x : Ident) : x.node.WellFormed :=
  .of rfl (by simp [Ident.node])

@[simp] theorem prompt (p : Prompt) : p.node.WellFormed :=
  .of rfl (by simp [Prompt.node])

@[simp] theorem operator (o : Operator) : (Node.operator o).WellFormed :=
  .of rfl (by simp)

end WellFormed

end Node

namespace Syntax

open Token (Lexeme Kind)

section Marks

variable {m : Mark} {op : Op}

theorem mem_ops_of_multiplicativeOp {k : Kind} (h : multiplicativeOp? k = some op) :
    op ∈ Layer.ops .multiplicative := by
  unfold multiplicativeOp? at h
  split at h <;> cases h <;> decide

theorem mem_ops_of_additiveOp {k : Kind} (h : additiveOp? k = some op) :
    op ∈ Layer.ops .additive := by
  unfold additiveOp? at h
  split at h <;> cases h <;> decide

theorem mem_ops_of_relationalOp {k : Kind} (h : relationalOp? k = some op) :
    op ∈ Layer.ops .relational := by
  unfold relationalOp? at h
  split at h <;> cases h <;> decide

end Marks

/-- The layers of which the expressions of a category may be nodes. -/
def Category.layers : Category → List (Option Layer)
  | .factor | .action => [none]
  | .product => [none, some .multiplicative]
  | .sum => [none, some .multiplicative, some .additive]
  | _ => [none, some .multiplicative, some .additive, some .relational]

/-- What is true of the trees that the parts of a category stand for. -/
def Category.Shapes : (c : Category) → c.Tree → Prop
  | .factor, e | .action, e => (Node.expr e).WellFormed ∧ e.ownLayer? ∈ Category.layers .factor
  | .product, e => (Node.expr e).WellFormed ∧ e.ownLayer? ∈ Category.layers .product
  | .sum, e => (Node.expr e).WellFormed ∧ e.ownLayer? ∈ Category.layers .sum
  | .expr, e => (Node.expr e).WellFormed
  | .items, es | .arguments, es | .elements, es => ∀ e ∈ es, (Node.expr e).WellFormed
  | .statement, s => (Node.stmt s).WellFormed ∧ s.isJump = false
  | .statements, ss => ∀ s ∈ ss, (Node.stmt s).WellFormed ∧ s.isJump = false
  | .body conditional, b | .block conditional, b =>
    (Node.body b).WellFormed ∧ (conditional = false → b.isPlain)
  | .main, b => (Node.body b).WellFormed ∧ b.isPlain
  | .orWhens, others => ∀ o ∈ others, (Node.orWhen o).WellFormed
  | .otherwise, last => ∀ o ∈ last, (Node.otherwise o).WellFormed
  | .names, _ | .parameters, _ => True
  | .definition, f => (Node.function f).WellFormed
  | .definitions, fs => ∀ f ∈ fs, (Node.function f).WellFormed
  | .program, p => (Node.program p).WellFormed

theorem nonneg_ofNat {value : Nat} (h : value ≤ Token.maxInteger) : 0 ≤ Int64.ofNat value := by
  rw [Int64.le_iff_toInt_le, Int64.toInt_ofNat_of_lt (Nat.lt_succ_of_le h)]
  exact Int.natCast_nonneg value

section Bodies

variable {ss : List Stmt}

/-- A body is well formed if its statements are, and no jump is among those before the last. -/
theorem wellFormed_body (span : Span) (hss : ∀ s ∈ ss, (Node.stmt s).WellFormed)
    (hfront : ∀ s ∈ ss.dropLast, s.isJump = false) : (Node.body ⟨ss, span⟩).WellFormed :=
  .of (List.all_eq_true.mpr fun s hs => by simp [hfront s hs])
    (by simpa using hss)

theorem wellFormed_plainBody (span : Span)
    (hss : ∀ s ∈ ss, (Node.stmt s).WellFormed ∧ s.isJump = false) :
    (Node.body ⟨ss, span⟩).WellFormed ∧ (Body.mk ss span).isPlain := by
  refine ⟨wellFormed_body span (fun s hs => (hss s hs).1) fun s hs => ?_, ?_⟩
  · exact (hss s (List.dropLast_subset _ hs)).2
  · exact List.all_eq_true.mpr fun s hs => by simp [(hss s hs).2]

end Bodies

theorem ne_relational {o : Option Layer} (h : o ∈ Category.layers .sum) :
    o ≠ some .relational := by
  rintro rfl
  exact absurd h (by decide)

/-- What is derived from tokens is well formed. -/
theorem shapes_of_derives {c : Category} {ts : List Lexeme} {t : c.Tree}
    (h : Derives .loose c ts t) (hts : Fits ts) : c.Shapes t := by
  induction h with
  | int value span =>
    have hvalue := nonneg_ofNat (hts value (by simp))
    exact ⟨.of (decide_eq_true hvalue) (by simp), List.mem_cons_self⟩
  | float value span | string text span | yes span | no span | name ident =>
    exact ⟨.of rfl (by simp), List.mem_cons_self⟩
  | group span _ ih | charOf span _ ih | codeOf span _ ih | length span _ ih =>
    have he : (Node.expr _).WellFormed := ih (by simpa using hts)
    exact ⟨.of rfl (by simpa using he), List.mem_cons_self⟩
  | @unary m op ts e opSpan span hm _ ih =>
    obtain ⟨he, -⟩ := ih (by simpa using hts)
    have hop : op ∈ [Op.not, Op.sub] := by
      unfold unaryOp? at hm
      split at hm <;> cases hm <;> decide
    refine ⟨.of (decide_eq_true hop) ?_, List.mem_cons_self⟩
    simpa using he
  | element array span _ ih =>
    obtain ⟨he, hlayer⟩ := ih (by simpa using hts)
    refine ⟨.of (decide_eq_true (ne_relational hlayer)) ?_, List.mem_cons_self⟩
    simpa using he
  | atEnd file span | readAll file span | readComma _ file span | readLine file span =>
    exact ⟨.of rfl (by simp), List.mem_cons_self⟩
  | action _ ih => exact ih hts
  | call callee span _ ih =>
    have hes : ∀ e ∈ _, (Node.expr e).WellFormed := ih (by simpa using hts)
    exact ⟨.of rfl (by simpa using hes), List.mem_cons_self⟩
  | input prompt span =>
    refine ⟨.of rfl ?_, List.mem_cons_self⟩
    cases prompt <;> simp
  | readSome file span _ ih =>
    have he : (Node.expr _).WellFormed := ih (by simpa using hts)
    exact ⟨.of rfl (by simpa using he), List.mem_cons_self⟩
  | ofFactor _ ih =>
    obtain ⟨he, hlayer⟩ := ih hts
    have hmore : Category.layers .factor ⊆ Category.layers .product := by decide
    exact ⟨he, hmore hlayer⟩
  | multiply opSpan span _ hm _ ihl ihr =>
    simp only [fits_append, fits_cons_mark] at hts
    obtain ⟨hl, hleft⟩ := ihl hts.1
    obtain ⟨hr, hright⟩ := ihr hts.2
    refine ⟨.of (decide_eq_true ⟨mem_ops_of_multiplicativeOp hm, hleft, hright⟩) ?_, ?_⟩
    · simpa using ⟨hl, hr⟩
    · simp [Category.layers, Expr.ownLayer?]
  | ofProduct _ ih =>
    obtain ⟨he, hlayer⟩ := ih hts
    have hmore : Category.layers .product ⊆ Category.layers .sum := by decide
    exact ⟨he, hmore hlayer⟩
  | add opSpan span _ hm _ ihl ihr =>
    simp only [fits_append, fits_cons_mark] at hts
    obtain ⟨hl, hleft⟩ := ihl hts.1
    obtain ⟨hr, hright⟩ := ihr hts.2
    refine ⟨.of (decide_eq_true ⟨mem_ops_of_additiveOp hm, hleft, hright⟩) ?_, ?_⟩
    · simpa using ⟨hl, hr⟩
    · simp [Category.layers, Expr.ownLayer?]
  | ofSum _ ih => exact (ih hts).1
  | compare opSpan span _ hm _ ihl ihr =>
    simp only [fits_append, fits_cons_mark] at hts
    obtain ⟨hl, hleft⟩ := ihl hts.1
    obtain ⟨hr, hright⟩ := ihr hts.2
    refine .of (decide_eq_true ⟨mem_ops_of_relationalOp hm, hleft, hright⟩) ?_
    simpa using ⟨hl, hr⟩
  | oneItem _ ih => exact List.forall_mem_singleton.mpr (ih hts)
  | moreItems _ _ ih ihs =>
    simp only [fits_append, fits_cons_mark] at hts
    exact List.forall_mem_cons.mpr ⟨ih hts.1, ihs hts.2⟩
  | noArguments | noElements | noOrWhens | noStatements | noDefinitions => exact List.forall_mem_nil _
  | arguments _ ih | elementsComma _ _ ih => exact ih (by simpa using hts)
  | elements _ ih => exact ih hts
  | giveBackNone span | closeFile file span =>
    exact ⟨.of rfl (by simp), rfl⟩
  | giveBack span _ ih | assign target span _ ih | write file newline span _ ih =>
    have he : (Node.expr _).WellFormed := ih (by simpa using hts)
    exact ⟨.of rfl (by simpa using he), rfl⟩
  | advance target opSpan span hm =>
    refine ⟨.of (decide_eq_true ?_) (by simp), rfl⟩
    unfold advanceOp? at hm
    split at hm <;> cases hm <;> simp
  | act _ ih =>
    obtain ⟨he, -⟩ := ih hts
    exact ⟨.of rfl (by simpa using he), rfl⟩
  | allocate target span _ ih =>
    obtain ⟨he, hlayer⟩ := ih (by simpa using hts)
    refine ⟨.of (decide_eq_true (ne_relational hlayer)) ?_, rfl⟩
    simpa using he
  | collect target span _ ih =>
    have hes : ∀ e ∈ _, (Node.expr e).WellFormed := ih (by simpa using hts)
    exact ⟨.of rfl (by simpa using hes), rfl⟩
  | openFile target span _ htwo ih | split target span _ htwo ih =>
    obtain ⟨a, b, rfl⟩ := List.length_eq_two.mp (htwo rfl)
    have hes : ∀ e ∈ [a, b], (Node.expr e).WellFormed := ih (by simpa using hts)
    exact ⟨.of rfl (by simpa [openTree, splitTree] using hes), rfl⟩
  | print newline span _ ih =>
    have hes : ∀ e ∈ _, (Node.expr e).WellFormed := ih (by simpa using hts)
    exact ⟨.of rfl (by simpa using hes), rfl⟩
  | update array slot span _ _ ihi ihv =>
    simp only [fits_cons_identifier, fits_append, fits_cons_mark] at hts
    obtain ⟨hi, hlayer⟩ := ihi hts.1
    have hv : (Node.expr _).WellFormed := ihv hts.2
    have hslot : (Node.expr (.element array _ slot)).WellFormed :=
      .of (decide_eq_true (ne_relational hlayer)) (by simpa using hi)
    exact ⟨.of rfl (by simpa using ⟨hslot, hv⟩), rfl⟩
  | loop span _ _ ih ihb =>
    simp only [fits_append, fits_cons_mark] at hts
    have he : (Node.expr _).WellFormed := ih hts.1
    obtain ⟨hb, -⟩ := ihb hts.2
    exact ⟨.of rfl (by simpa using ⟨he, hb⟩), rfl⟩
  | range counter span _ _ _ ihf ihl ihb =>
    simp only [fits_cons_identifier, fits_append, fits_cons_mark] at hts
    have hf : (Node.expr _).WellFormed := ihf hts.1
    have hl : (Node.expr _).WellFormed := ihl hts.2.1
    obtain ⟨hb, -⟩ := ihb hts.2.2
    exact ⟨.of rfl (by simpa using ⟨hf, hl, hb⟩), rfl⟩
  | when span _ _ _ _ ih ihb iho ihl =>
    simp only [fits_append, fits_cons_mark] at hts
    have he : (Node.expr _).WellFormed := ih hts.1
    obtain ⟨hb, -⟩ := ihb hts.2.1
    have ho : ∀ o ∈ _, (Node.orWhen o).WellFormed := iho hts.2.2.1
    have hl : ∀ o ∈ _, (Node.otherwise o).WellFormed := ihl hts.2.2.2
    refine ⟨.of rfl ?_, rfl⟩
    simp only [Node.children, Stmt.children, Body.nodes, Option.map_some, Option.toList_some,
      List.cons_append, List.nil_append, List.forall_mem_cons, List.forall_mem_append,
      List.forall_mem_map]
    refine ⟨he, hb, ho, fun m hm => ?_⟩
    obtain ⟨o, ho, rfl⟩ := by simpa using hm
    exact hl o ho
  | orWhens span _ _ _ ih ihb ihs =>
    simp only [fits_append, fits_cons_mark] at hts
    have he : (Node.expr _).WellFormed := ih hts.1
    obtain ⟨hb, -⟩ := ihb hts.2.1
    refine List.forall_mem_cons.mpr ⟨.of rfl ?_, ihs hts.2.2⟩
    simpa using ⟨he, hb⟩
  | noOtherwise => rintro _ ⟨⟩
  | otherwise span _ ih =>
    obtain ⟨hb, -⟩ := ih (by simpa using hts)
    rintro _ ⟨⟩
    exact .of rfl (by simpa using hb)
  | statements semicolon _ _ _ ih ihs =>
    simp only [fits_append] at hts
    exact List.forall_mem_cons.mpr ⟨ih hts.1, ihs hts.2.2⟩
  | body conditional span _ ih =>
    obtain ⟨hb, hplain⟩ := wellFormed_plainBody span (ih hts)
    exact ⟨hb, fun _ => hplain⟩
  | @bodyJump ts ss m jump jumpSpan span semicolon _ hm ih =>
    simp only [fits_append] at hts
    have hss : ∀ s ∈ ss, (Node.stmt s).WellFormed ∧ s.isJump = false := ih hts.1
    have hjump : (Node.stmt (jump jumpSpan)).WellFormed := by
      unfold jump? at hm
      split at hm <;> cases hm <;> exact .of rfl (by simp)
    refine ⟨wellFormed_body span (List.forall_mem_append.mpr ⟨fun s hs => (hss s hs).1, ?_⟩) ?_,
      by rintro ⟨⟩⟩
    · exact List.forall_mem_singleton.mpr hjump
    · rw [List.dropLast_concat]
      exact fun s hs => (hss s hs).2
  | block _ ih => exact ih (by simpa using hts)
  | braced _ ih =>
    obtain ⟨hb, hplain⟩ := ih hts
    exact ⟨hb, hplain rfl⟩
  | single span _ ih =>
    simp only [fits_append] at hts
    exact wellFormed_plainBody span (List.forall_mem_singleton.mpr (ih hts.1))
  | oneName | moreNames | noParameters | emptyParameters | parameters => trivial
  | definition ident span _ _ _ ihb =>
    simp only [fits_cons_identifier, fits_append, fits_cons_mark] at hts
    obtain ⟨hb, hplain⟩ := ihb hts.2
    refine .of hplain ?_
    simp only [Node.children, Body.nodes, Option.map_some, Option.toList_some,
      List.forall_mem_cons, List.forall_mem_append, List.forall_mem_map]
    exact ⟨.ident _, fun x _ => .ident x, hb, List.forall_mem_nil _⟩
  | definitions _ _ ih ihs =>
    simp only [fits_append] at hts
    exact List.forall_mem_cons.mpr ⟨ih hts.1, ihs hts.2⟩
  | noProgram span => exact .of rfl (by simp)
  | program span _ _ ih ihb =>
    simp only [fits_append, fits_cons_mark] at hts
    have hfs : ∀ f ∈ _, (Node.function f).WellFormed := ih hts.1
    obtain ⟨hb, hplain⟩ := ihb hts.2
    refine .of hplain ?_
    simpa [or_imp, forall_and] using ⟨hfs, hb⟩

/-- No text has integers that are too great. -/
theorem fits_lexemesOf (limits : Token.Limits) (text : Bytes) : Fits (lexemesOf limits text) := by
  intro value hvalue
  obtain ⟨t, ht, hsaid⟩ := List.mem_map.mp hvalue
  have hkind : t.kind ≠ .float := by
    rw [Token.kind, ← Lexeme.kind_said, hsaid]
    rintro ⟨⟩
  have hwritable := Token.scanAll_writable ht hkind
  rwa [hsaid] at hwritable

/-- The trees that a text stands for are well formed, and no jump is among the statements of an
entry. -/
theorem StandsFor.wellFormed {limits : Token.Limits} {text : Bytes} {n : Node}
    (h : StandsFor limits text n) : n.WellFormed ∧ ∀ b, n = .body b → b.isPlain := by
  have hfits := fits_lexemesOf limits text
  obtain ⟨p, s, hp, rfl⟩ | ⟨s, hn⟩ := h
  · exact ⟨shapes_of_derives (derives_of_parseProgram hp) hfits, by rintro _ ⟨⟩⟩
  · obtain ⟨ts, present, hts, hderives⟩ := derives_of_parseEntry hn
    rw [hts, fits_append] at hfits
    cases hderives with
    | function whole => exact ⟨shapes_of_derives whole hfits.1, by rintro _ ⟨⟩⟩
    | body whole =>
      obtain ⟨hb, hplain⟩ := shapes_of_derives whole hfits.1
      refine ⟨hb, ?_⟩
      rintro _ ⟨⟩
      exact hplain rfl
    | expr whole => exact ⟨shapes_of_derives whole hfits.1, by rintro _ ⟨⟩⟩

end Syntax

end Kotoba
