import Kotoba.Proofs.Syntax.Placed
import Kotoba.Proofs.Syntax.Told

/-! What an exported tree tells. From the JSON text of a tree without floats its outline can be
told: all of it but the places of children of which only a name is written. -/
namespace Kotoba

section Exact

open Document (Exact)

theorem Document.exact_node {kind : String} {fields : List (String × Document)} {span : Span} :
    (Document.node kind fields span).Exact ↔ ∀ f ∈ fields, f.2.Exact := by
  constructor
  · rintro (_ | _ | _ | _ | _ | each) f hf
    exact each f (by simp [hf])
  · refine fun h => .object ?_
    simp only [List.mem_append, List.mem_cons]
    rintro f ((rfl | hf) | hf)
    · exact .text kind
    · exact h f hf
    · split at hf
      · cases hf
      · obtain rfl := List.mem_singleton.mp hf
        exact .text span.text

attribute [simp] Exact.null Exact.bool Exact.int Exact.text

theorem Document.exact_getD {α : Type} {f : α → Document} (a : Option α)
    (h : ∀ b, a = some b → (f b).Exact) : ((a.map f).getD .null).Exact := by
  cases a with
  | none => exact .null
  | some b => exact h b rfl

mutual

theorem Expr.exact_document (e : Expr) (he : (Node.expr e).Clear) : e.document.Exact := by
  rw [e.document_eq]
  refine Document.exact_node.mpr ?_
  cases e with
  | float value span => exact absurd rfl (he.plain.exact value span)
  | int | string | bool | name | readLine | atEnd => simp [Expr.fields]
  | group inner span | single _ inner span | charOf inner span | codeOf inner span
  | length inner span =>
    simp [Expr.fields, inner.exact_document he.child]
  | unary op operand span =>
    simp [Expr.fields, operand.exact_document he.child]
  | binary layer left op right span =>
    simp [Expr.fields, left.exact_document he.child, right.exact_document he.child]
  | call callee arguments span =>
    have hall := Expr.exact_documents arguments fun e hm => he.child (by simp [hm])
    simp [Expr.fields, Exact.list hall]
  | input prompt span => cases prompt <;> simp [Expr.fields]
  | element array index span =>
    simp [Expr.fields, index.exact_document he.child]
  | read file count span =>
    cases count with
    | none => simp [Expr.fields]
    | some count =>
      simp [Expr.fields, count.exact_document he.child]

theorem Expr.exact_documents (es : List Expr) (hes : ∀ e ∈ es, (Node.expr e).Clear) :
    ∀ d ∈ Expr.documents es, d.Exact := by
  cases es with
  | nil => simp [Expr.documents]
  | cons e rest =>
    obtain ⟨he, hes⟩ := List.forall_mem_cons.mp hes
    rw [Expr.documents]
    exact List.forall_mem_cons.mpr ⟨e.exact_document he, Expr.exact_documents rest hes⟩

end

mutual

theorem Stmt.exact_document (s : Stmt) (hs : (Node.stmt s).Clear) : s.document.Exact := by
  rw [s.document_eq]
  refine Document.exact_node.mpr ?_
  have hexpr : ∀ e : Expr, .expr e ∈ s.children → e.document.Exact := fun e he =>
    e.exact_document (hs.child he)
  cases s with
  | giveBack value span =>
    have hvalue := Document.exact_getD value fun e he => hexpr e (by simp [he])
    simp [Stmt.fields, hvalue]
  | leave | proceed => simp [Stmt.fields]
  | «when» condition body others otherwise span =>
    have hbody := Body.exact_documentOf body fun b hb => hs.child (by simp [hb])
    have hothers := OrWhen.exact_documents others fun b hb => hs.child (by simp [hb])
    have hotherwise := Otherwise.exact_documentOf otherwise fun b hb => hs.child (by simp [hb])
    simp [Stmt.fields, hexpr condition (by simp), hbody, Exact.list hothers, hotherwise]
  | loop condition body span =>
    have hbody := Body.exact_documentOf body fun b hb => hs.child (by simp [hb])
    simp [Stmt.fields, hexpr condition (by simp), hbody]
  | range counter first last body span =>
    have hbody := Body.exact_documentOf body fun b hb => hs.child (by simp [hb])
    simp [Stmt.fields, hexpr first (by simp), hexpr last (by simp), hbody]
  | assign target value span | write target value _ span | allocate target value span =>
    simp [Stmt.fields, hexpr value (by simp)]
  | advance | closeFile => simp [Stmt.fields]
  | print arguments newline span =>
    have hall := Expr.exact_documents arguments fun e he => hs.child (by simp [he])
    simp [Stmt.fields, Exact.list hall]
  | openFile target path mode span =>
    simp [Stmt.fields, hexpr path (by simp), hexpr mode (by simp)]
  | collect target elements span =>
    have hall := Expr.exact_documents elements fun e he => hs.child (by simp [he])
    simp [Stmt.fields, Exact.list hall]
  | update array index slot value span =>
    simp [Stmt.fields, hexpr (.element array index slot) (by simp), hexpr value (by simp)]
  | split target source separator span =>
    simp [Stmt.fields, hexpr source (by simp), hexpr separator (by simp)]
  | expr value =>
    have hvalue := hexpr value (by simp)
    rw [value.document_eq] at hvalue
    exact Document.exact_node.mp hvalue

theorem Stmt.exact_documents (ss : List Stmt) (hss : ∀ s ∈ ss, (Node.stmt s).Clear) :
    ∀ d ∈ Stmt.documents ss, d.Exact := by
  cases ss with
  | nil => simp [Stmt.documents]
  | cons s rest =>
    obtain ⟨hs, hss⟩ := List.forall_mem_cons.mp hss
    rw [Stmt.documents]
    exact List.forall_mem_cons.mpr ⟨s.exact_document hs, Stmt.exact_documents rest hss⟩

theorem Body.exact_documentOf (b : Option Body) (hb : ∀ c, b = some c → (Node.body c).Clear) :
    (Body.documentOf b).Exact := by
  cases b with
  | none => exact .null
  | some b =>
    cases b with
    | mk statements span =>
      have hall := Stmt.exact_documents statements fun s hs => (hb _ rfl).child (by simp [hs])
      exact Document.exact_node.mpr (by simp [Exact.list hall])

theorem OrWhen.exact_documents (bs : List OrWhen) (hbs : ∀ b ∈ bs, (Node.orWhen b).Clear) :
    ∀ d ∈ OrWhen.documents bs, d.Exact := by
  cases bs with
  | nil => simp [OrWhen.documents]
  | cons b rest =>
    obtain ⟨hb, hbs⟩ := List.forall_mem_cons.mp hbs
    rw [OrWhen.documents]
    refine List.forall_mem_cons.mpr ⟨?_, OrWhen.exact_documents rest hbs⟩
    rw [b.document_eq]
    cases b with
    | mk condition body span =>
      have hcondition := condition.exact_document hb.child
      have hbody := Body.exact_documentOf body fun b h => hb.child (by simp [h])
      exact Document.exact_node.mpr (by simp [hcondition, hbody])

theorem Otherwise.exact_documentOf (b : Option Otherwise)
    (hb : ∀ c, b = some c → (Node.otherwise c).Clear) : (Otherwise.documentOf b).Exact := by
  cases b with
  | none => exact .null
  | some b =>
    cases b with
    | mk body span =>
      have hbody := Body.exact_documentOf body fun b h => (hb _ rfl).child (by simp [h])
      show (Otherwise.document _).Exact
      rw [Otherwise.document_eq]
      exact Document.exact_node.mpr (by simp [hbody])

end

end Exact

section Outlines

mutual

theorem Expr.document_outline (e : Expr) : e.outline.document = e.document := by
  cases e with
  | int | float | string | bool | name | readLine | atEnd => rfl
  | group inner span | single _ inner span | charOf inner span | codeOf inner span
  | length inner span => rw [Expr.outline, Expr.document, Expr.document, inner.document_outline]
  | unary op operand span =>
    rw [Expr.outline, Expr.document, Expr.document, operand.document_outline]
    rfl
  | binary layer left op right span =>
    rw [Expr.outline, Expr.document, Expr.document, left.document_outline,
      right.document_outline]
    rfl
  | call callee arguments span =>
    rw [Expr.outline, Expr.document, Expr.document, Expr.documents_outlines]
    rfl
  | input prompt span => cases prompt <;> rfl
  | element array index span =>
    rw [Expr.outline, Expr.document, Expr.document, index.document_outline]
    rfl
  | read file count span =>
    cases count with
    | none => rfl
    | some count =>
      rw [Expr.outline, Expr.document, Expr.document, count.document_outline]
      rfl

theorem Expr.documents_outlines (es : List Expr) :
    Expr.documents (Expr.outlines es) = Expr.documents es := by
  cases es with
  | nil => rfl
  | cons e rest =>
    rw [Expr.outlines, Expr.documents, Expr.documents, e.document_outline,
      Expr.documents_outlines rest]

end

theorem Expr.getD_map_outline (e : Option Expr) :
    ((e.map Expr.outline).map Expr.document).getD .null = (e.map Expr.document).getD .null := by
  cases e with
  | none => rfl
  | some e => exact e.document_outline

mutual

theorem Stmt.document_outline (s : Stmt) : s.outline.document = s.document := by
  rw [s.outline.document_eq, s.document_eq]
  cases s with
  | leave | proceed | closeFile | advance => rfl
  | giveBack value span =>
    simp only [Stmt.outline, Stmt.nodeType, Stmt.fields, Stmt.span, Expr.getD_map_outline]
  | «when» condition body others otherwise span =>
    simp only [Stmt.outline, Stmt.nodeType, Stmt.fields, Stmt.span, condition.document_outline,
      Body.documentOf_outline? body, OrWhen.documents_outlines others,
      Otherwise.documentOf_outline? otherwise]
  | loop condition body span =>
    simp only [Stmt.outline, Stmt.nodeType, Stmt.fields, Stmt.span, condition.document_outline,
      Body.documentOf_outline? body]
  | range counter first last body span =>
    simp only [Stmt.outline, Stmt.nodeType, Stmt.fields, Stmt.span, first.document_outline,
      last.document_outline, Body.documentOf_outline? body, Ident.bare]
  | print arguments newline span =>
    simp only [Stmt.outline, Stmt.nodeType, Stmt.fields, Stmt.span, Expr.documents_outlines]
  | collect target elements span =>
    simp only [Stmt.outline, Stmt.nodeType, Stmt.fields, Stmt.span, Expr.documents_outlines,
      Ident.bare]
  | update array index slot value span =>
    have hslot := (Expr.element array index slot).document_outline
    rw [Expr.outline] at hslot
    simp only [Stmt.outline, Stmt.nodeType, Stmt.fields, Stmt.span, hslot, value.document_outline]
  | expr value =>
    show Document.node value.outline.nodeType value.outline.fields value.outline.span =
      Document.node value.nodeType value.fields value.span
    rw [← value.document_eq, ← value.outline.document_eq, value.document_outline]
  | assign | openFile | write | allocate | split =>
    simp only [Stmt.outline, Stmt.nodeType, Stmt.fields, Stmt.span, Expr.document_outline,
      Ident.bare]

theorem Stmt.documents_outlines (ss : List Stmt) :
    Stmt.documents (Stmt.outlines ss) = Stmt.documents ss := by
  cases ss with
  | nil => rfl
  | cons s rest =>
    rw [Stmt.outlines, Stmt.documents, Stmt.documents, s.document_outline,
      Stmt.documents_outlines rest]

theorem Body.documentOf_outline? (b : Option Body) :
    Body.documentOf (Body.outline? b) = Body.documentOf b := by
  cases b with
  | none => rfl
  | some b =>
    cases b with
    | mk statements span =>
      show Document.node "Body" [("statements", .list (Stmt.documents (Stmt.outlines statements)))]
        span = Document.node "Body" [("statements", .list (Stmt.documents statements))] span
      rw [Stmt.documents_outlines statements]

theorem OrWhen.documents_outlines (bs : List OrWhen) :
    OrWhen.documents (OrWhen.outlines bs) = OrWhen.documents bs := by
  cases bs with
  | nil => rfl
  | cons b rest =>
    cases b with
    | mk condition body span =>
      rw [OrWhen.outlines, OrWhen.documents, OrWhen.documents, OrWhen.document_eq,
        OrWhen.document_eq, condition.document_outline, Body.documentOf_outline? body,
        OrWhen.documents_outlines rest]

theorem Otherwise.documentOf_outline? (b : Option Otherwise) :
    Otherwise.documentOf (Otherwise.outline? b) = Otherwise.documentOf b := by
  cases b with
  | none => rfl
  | some b =>
    cases b with
    | mk body span =>
      show Otherwise.document ⟨Body.outline? body, span⟩ = Otherwise.document ⟨body, span⟩
      rw [Otherwise.document_eq, Otherwise.document_eq, Body.documentOf_outline? body]

end

end Outlines

theorem Ident.map_bare_eq {ps qs : List Ident}
    (h : ps.map (fun p => Document.text p.name) = qs.map fun p => Document.text p.name) :
    ps.map bare = qs.map bare := by
  induction ps generalizing qs with
  | nil =>
    cases qs with
    | nil => rfl
    | cons q qs => cases h
  | cons p ps ih =>
    cases qs with
    | nil => cases h
    | cons q qs =>
      obtain ⟨hname, hrest⟩ := List.cons.inj h
      rw [List.map_cons, List.map_cons, bare_eq (Document.text.inj hname), ih hrest]

theorem FuncDef.outline_eq {f g : FuncDef} (hf : (Node.function f).Clear)
    (hg : (Node.function g).Clear) (h : f.document = g.document) : f.outline = g.outline := by
  obtain ⟨-, hfields, hspan⟩ := Document.node_inj hf hg h
  obtain ⟨hname, hparams, hdbody⟩ : f.name.name = g.name.name ∧
      f.params.map (fun p => Document.text p.name) = g.params.map (fun p => Document.text p.name) ∧
      Body.documentOf f.body = Body.documentOf g.body := by simpa using hfields
  have hbody := Body.outline?_eq f.body g.body
    (fun b hb => hf.child (by simp [hb]))
    (fun b hb => hg.child (by simp [hb])) hdbody
  rw [outline, outline, Ident.bare_eq hname, Ident.map_bare_eq hparams, hbody,
    show f.span = g.span from hspan]

theorem FuncDef.map_outline_eq {fs gs : List FuncDef} (hfs : ∀ f ∈ fs, (Node.function f).Clear)
    (hgs : ∀ g ∈ gs, (Node.function g).Clear) (h : fs.map document = gs.map document) :
    fs.map outline = gs.map outline := by
  induction fs generalizing gs with
  | nil =>
    cases gs with
    | nil => rfl
    | cons g gs => cases h
  | cons f fs ih =>
    cases gs with
    | nil => cases h
    | cons g gs =>
      obtain ⟨hhead, hrest⟩ := List.cons.inj h
      obtain ⟨hf, hfs⟩ := List.forall_mem_cons.mp hfs
      obtain ⟨hg, hgs⟩ := List.forall_mem_cons.mp hgs
      rw [List.map_cons, List.map_cons, outline_eq hf hg hhead, ih hfs hgs hrest]

theorem Program.outline_eq {p q : Program} (hp : (Node.program p).Clear)
    (hq : (Node.program q).Clear) (h : p.document = q.document) : p.outline = q.outline := by
  obtain ⟨-, hfields, hspan⟩ := Document.node_inj hp hq h
  obtain ⟨hdfunctions, hdbody⟩ :
      p.functions.map FuncDef.document = q.functions.map FuncDef.document ∧
      Body.documentOf p.body = Body.documentOf q.body := by simpa using hfields
  have hfunctions := FuncDef.map_outline_eq
    (fun f hf => hp.child (by simp [hf]))
    (fun f hf => hq.child (by simp [hf])) hdfunctions
  have hbody := Body.outline?_eq p.body q.body
    (fun b hb => hp.child (by simp [hb]))
    (fun b hb => hq.child (by simp [hb])) hdbody
  rw [outline, outline, hfunctions, hbody, show p.span = q.span from hspan]

theorem FuncDef.exact_document {f : FuncDef} (hf : (Node.function f).Clear) :
    f.document.Exact := by
  have hbody := Body.exact_documentOf f.body fun b hb => hf.child (by simp [hb])
  have hparams : (Document.list (f.params.map fun p => .text p.name)).Exact := by
    refine .list fun d hd => ?_
    obtain ⟨p, -, rfl⟩ := List.mem_map.mp hd
    exact .text p.name
  exact Document.exact_node.mpr (by simp [hparams, hbody])

theorem Program.exact_document {p : Program} (hp : (Node.program p).Clear) :
    p.document.Exact := by
  have hbody := Body.exact_documentOf p.body fun b hb => hp.child (by simp [hb])
  have hfunctions : (Document.list (p.functions.map FuncDef.document)).Exact := by
    refine .list fun d hd => ?_
    obtain ⟨f, hf, rfl⟩ := List.mem_map.mp hd
    exact FuncDef.exact_document (hp.child (by simp [hf]))
  exact Document.exact_node.mpr (by simp [hfunctions, hbody])

theorem FuncDef.document_outline (f : FuncDef) : f.outline.document = f.document := by
  simp only [document, outline, List.map_map, Body.documentOf_outline?, Ident.bare]
  rfl

theorem Program.document_outline (p : Program) : p.outline.document = p.document := by
  have hfunctions : (p.functions.map FuncDef.outline).map FuncDef.document =
      p.functions.map FuncDef.document := by
    rw [List.map_map]
    exact List.map_congr_left fun f _ => f.document_outline
  simp only [document, outline, hfunctions, Body.documentOf_outline?]

namespace Node

variable {n m : Node}

/-- Which of the constructors a tree is made by that a text stands for, told by its type. -/
def indexOf : String → Nat
  | "Program" => 0
  | "FuncDef" => 1
  | "Body" => 2
  | _ => 4

theorem get?_type (n : Node) : n.document.get? "type" = some (.text n.nodeType) := by
  cases n with
  | stmt s => exact congrArg (Document.get? "type") s.document_eq
  | expr e => exact congrArg (Document.get? "type") e.document_eq
  | body b => exact congrArg (Document.get? "type") b.document_eq
  | orWhen branch => exact congrArg (Document.get? "type") branch.document_eq
  | otherwise branch => exact congrArg (Document.get? "type") branch.document_eq
  | program | function | operator => rfl

theorem indexOf_nodeType (h : n.isWhole) : indexOf n.nodeType = n.ctorIdx := by
  cases n with
  | program | function | body => rfl
  | expr e =>
    cases e with
    | binary layer left op right span => cases layer <;> rfl
    | single layer inner span => cases layer <;> rfl
    | _ => rfl
  | stmt | orWhen | otherwise | operator => cases h

theorem outline_eq (hn : n.isWhole) (hm : m.isWhole) (hcn : n.Clear) (hcm : m.Clear)
    (h : n.document = m.document) : n.outline = m.outline := by
  have htype : n.nodeType = m.nodeType := by
    have htypes := n.get?_type
    rw [h, m.get?_type] at htypes
    exact (Document.text.inj (Option.some.inj htypes)).symm
  have hindex : n.ctorIdx = m.ctorIdx := by
    rw [← indexOf_nodeType hn, htype, indexOf_nodeType hm]
  cases n with
  | program p =>
    cases m with
    | program q => exact congrArg program (Program.outline_eq hcn hcm h)
    | _ => cases hindex
  | function f =>
    cases m with
    | function g => exact congrArg function (FuncDef.outline_eq hcn hcm h)
    | _ => cases hindex
  | body b =>
    cases m with
    | body c => exact congrArg body (Body.outline_eq b c hcn hcm h)
    | _ => cases hindex
  | expr e =>
    cases m with
    | expr e' => exact congrArg expr (Expr.outline_eq e e' hcn hcm h)
    | _ => cases hindex
  | stmt | orWhen | otherwise | operator => cases hn

theorem exact_document (hn : n.isWhole) (hcn : n.Clear) : n.document.Exact := by
  cases n with
  | program p => exact Program.exact_document hcn
  | function f => exact FuncDef.exact_document hcn
  | body b => exact Body.exact_documentOf (some b) (by rintro _ ⟨⟩; exact hcn)
  | expr e => exact e.exact_document hcn
  | stmt | orWhen | otherwise | operator => cases hn

theorem document_outline (hn : n.isWhole) : n.outline.document = n.document := by
  cases n with
  | program p => exact p.document_outline
  | function f => exact f.document_outline
  | body b => exact Body.documentOf_outline? (some b)
  | expr e => exact e.document_outline
  | stmt | orWhen | otherwise | operator => cases hn

/-- A tree in which there is no float. -/
def FloatFree (n : Node) : Prop := ∀ value span, ¬ n.Part (.expr (.float value span))

/-- Whether a tree of less than the given depth has no float. -/
def isFloatFree : (depth : Nat) → Node → Bool
  | 0, _ => false
  | _ + 1, .expr (.float ..) => false
  | depth + 1, n => n.children.all (isFloatFree depth)

theorem floatFree_of_isFloatFree {depth : Nat} (h : n.isFloatFree depth) : n.FloatFree := by
  induction depth generalizing n with
  | zero => cases h
  | succ depth ih =>
    intro value span hpart
    unfold isFloatFree at h
    split at h
    · cases h
    · cases h
    · next heq hne =>
      cases heq
      obtain rfl | ⟨c, hc, hpart⟩ := hpart.cases_child
      · exact hne value span rfl
      · exact ih (List.all_eq_true.mp h c hc) value span hpart

end Node

namespace Syntax

variable {limits limits' : Token.Limits} {text text' : Bytes} {n n' : Node}

theorem StandsFor.clear (h : StandsFor limits text n) (hfree : n.FloatFree) : n.Clear := by
  obtain ⟨-, j, hrests⟩ := h.rests
  intro m hm
  obtain ⟨k, l, -, -, -, -, hknown, hspan, -⟩ := hrests.part hm
  obtain ⟨t, ht, hstart⟩ := hspan.starts
  have hin := Token.tokenize_ordered (Nat.le_refl k) ht ht
  have hunknown : m.span.start.isUnknown = false := hstart ▸ hin.isUnknown_start
  refine ⟨hunknown, ?_, hknown, ?_⟩
  · obtain ⟨-, hstop⟩ | ⟨u, -, hu, hstop⟩ := hspan.stops
    · rw [hstop, hunknown]
    · rw [hstop]
      exact Token.known_tokenize limits text _ _ hu
  · rintro value span rfl
    exact hfree value span hm

/-- A tree that a text stands for has a JSON text, if there is no float in it. Two such trees have
the same JSON text if and only if they have the same outline. -/
theorem json?_eq_iff_outline_eq (hn : StandsFor limits text n) (hn' : StandsFor limits' text' n')
    (hfree : n.FloatFree) (hfree' : n'.FloatFree) :
    (∃ json, n.document.json? = some json) ∧
      (n.document.json? = n'.document.json? ↔ n.outline = n'.outline) := by
  obtain ⟨hwhole, -⟩ := hn.rests
  obtain ⟨hwhole', -⟩ := hn'.rests
  have hclear := hn.clear hfree
  have hclear' := hn'.clear hfree'
  have hexact := Node.exact_document hwhole hclear
  refine ⟨Document.exists_render? hexact 0, fun h => ?_, fun h => ?_⟩
  · have hdoc := Document.json?_injective hexact (Node.exact_document hwhole' hclear') h
    exact Node.outline_eq hwhole hwhole' hclear hclear' hdoc
  · rw [← Node.document_outline hwhole, h, Node.document_outline hwhole']

/-- Two definitions that differ in the place of the parameter only. -/
theorem json?_eq_iff_outline_eq_parameter :
    let text : Bytes := "kawaii f( x) => modoru x + 1;"
    let text' : Bytes := "kawaii f(x ) => modoru x + 1;"
    ∃ n n', StandsFor {} text n ∧ StandsFor {} text' n' ∧ n.FloatFree ∧ n'.FloatFree ∧
      n.children.map Node.span ≠ n'.children.map Node.span ∧
      n.document.json? = n'.document.json? ∧ n.outline = n'.outline := by
  intro text text'
  have hcheck : ((entryOf? {} text).bind fun n => (entryOf? {} text').map fun n' =>
      decide (n.isFloatFree 9 ∧ n'.isFloatFree 9 ∧
        n.children.map Node.span ≠ n'.children.map Node.span ∧
        n.document.json? = n'.document.json?)) = some true := by decide +kernel
  obtain ⟨n, hn, hcheck⟩ := Option.bind_eq_some_iff.mp hcheck
  obtain ⟨n', hn', hcheck⟩ := Option.map_eq_some_iff.mp hcheck
  obtain ⟨hfree, hfree', hplaces, hjson⟩ := of_decide_eq_true hcheck
  have hfree := Node.floatFree_of_isFloatFree hfree
  have hfree' := Node.floatFree_of_isFloatFree hfree'
  have hstands : StandsFor {} text n := .inr (entryOf?_eq_some.mp hn)
  have hstands' : StandsFor {} text' n' := .inr (entryOf?_eq_some.mp hn')
  exact ⟨n, n', hstands, hstands', hfree, hfree', hplaces, hjson,
    (json?_eq_iff_outline_eq hstands hstands' hfree hfree').2.mp hjson⟩

end Syntax

end Kotoba
