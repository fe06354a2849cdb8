import Kotoba.Proofs.Syntax.Outline

/-! What a document tells of the tree it is exported from: expressions, statements and bodies with
the same document have the same outline. -/
namespace Kotoba

mutual

theorem Expr.outline_eq (e e' : Expr) (he : (Node.expr e).Clear) (he' : (Node.expr e').Clear)
    (h : e.document = e'.document) : e.outline = e'.outline := by
  rw [e.document_eq, e'.document_eq] at h
  obtain ⟨htype, hfields, hspan⟩ := Document.node_inj he he' h
  have hindex : e.ctorIdx = e'.ctorIdx := by
    rw [← e.indexOf_fields, htype, hfields, e'.indexOf_fields]
  cases e with
  | int value span =>
    cases e' with
    | int value' span' =>
      obtain rfl : span = span' := hspan
      cases hfields
      rfl
    | _ => cases hindex
  | float value span => exact absurd rfl (he.plain.exact value span)
  | string text span =>
    cases e' with
    | string text' span' =>
      obtain rfl : span = span' := hspan
      cases hfields
      rfl
    | _ => cases hindex
  | bool value span =>
    cases e' with
    | bool value' span' =>
      obtain rfl : span = span' := hspan
      cases hfields
      rfl
    | _ => cases hindex
  | name ident =>
    cases e' with
    | name ident' =>
      cases ident
      cases ident'
      cases hfields
      cases hspan
      rfl
    | _ => cases hindex
  | group inner span =>
    cases e' with
    | group inner' span' =>
      obtain rfl : span = span' := hspan
      have hinner := Expr.outline_eq inner inner' he.child
        he'.child (by simpa [Expr.fields] using hfields)
      rw [Expr.outline, Expr.outline, hinner]
    | _ => cases hindex
  | unary op operand span =>
    cases e' with
    | unary op' operand' span' =>
      obtain rfl : span = span' := hspan
      obtain ⟨hop, hdoc⟩ : op.op.symbol = op'.op.symbol ∧ operand.document = operand'.document := by
        simpa [Expr.fields] using hfields
      have hbare := Operator.bare_eq he.child he'.child hop
      have hoperand := Expr.outline_eq operand operand' he.child he'.child hdoc
      rw [Expr.outline, Expr.outline, hbare, hoperand]
    | _ => cases hindex
  | binary layer left op right span =>
    cases e' with
    | binary layer' left' op' right' span' =>
      obtain rfl : span = span' := hspan
      obtain rfl := Layer.nodeType_injective htype
      obtain ⟨hl, hop, hr⟩ : left.document = left'.document ∧ op.op.symbol = op'.op.symbol ∧
          right.document = right'.document := by simpa [Expr.fields] using hfields
      have hbare := Operator.bare_eq he.child he'.child hop
      have hleft := Expr.outline_eq left left' he.child he'.child hl
      have hright := Expr.outline_eq right right' he.child he'.child hr
      rw [Expr.outline, Expr.outline, hleft, hbare, hright]
    | _ => cases hindex
  | single layer inner span =>
    cases e' with
    | single layer' inner' span' =>
      obtain rfl : span = span' := hspan
      obtain rfl := Layer.nodeType_injective htype
      have hinner := Expr.outline_eq inner inner' he.child
        he'.child (by simpa [Expr.fields] using hfields)
      rw [Expr.outline, Expr.outline, hinner]
    | _ => cases hindex
  | call callee arguments span =>
    cases e' with
    | call callee' arguments' span' =>
      obtain rfl : span = span' := hspan
      obtain ⟨hname, hargs⟩ : callee.name = callee'.name ∧
          Expr.documents arguments = Expr.documents arguments' := by
        simpa [Expr.fields] using hfields
      have hall := Expr.outlines_eq arguments arguments'
        (fun e hm => he.child (by simp [hm]))
        (fun e hm => he'.child (by simp [hm])) hargs
      rw [Expr.outline, Expr.outline, Ident.bare_eq hname, hall]
    | _ => cases hindex
  | input prompt span =>
    cases e' with
    | input prompt' span' =>
      obtain rfl : span = span' := hspan
      rw [Expr.outline, Expr.outline, Prompt.bare_eq (by simpa [Expr.fields] using hfields)]
    | _ => cases hindex
  | element array index span =>
    cases e' with
    | element array' index' span' =>
      obtain rfl : span = span' := hspan
      obtain ⟨hname, hdoc⟩ : array.name = array'.name ∧ index.document = index'.document := by
        simpa [Expr.fields] using hfields
      have hat := Expr.outline_eq index index' he.child he'.child hdoc
      rw [Expr.outline, Expr.outline, Ident.bare_eq hname, hat]
    | _ => cases hindex
  | charOf code span =>
    cases e' with
    | charOf code' span' =>
      obtain rfl : span = span' := hspan
      have hcode := Expr.outline_eq code code' he.child
        he'.child (by simpa [Expr.fields] using hfields)
      rw [Expr.outline, Expr.outline, hcode]
    | _ => cases hindex
  | codeOf char span =>
    cases e' with
    | codeOf char' span' =>
      obtain rfl : span = span' := hspan
      have hchar := Expr.outline_eq char char' he.child
        he'.child (by simpa [Expr.fields] using hfields)
      rw [Expr.outline, Expr.outline, hchar]
    | _ => cases hindex
  | length value span =>
    cases e' with
    | length value' span' =>
      obtain rfl : span = span' := hspan
      have hvalue := Expr.outline_eq value value' he.child
        he'.child (by simpa [Expr.fields] using hfields)
      rw [Expr.outline, Expr.outline, hvalue]
    | _ => cases hindex
  | read file count span =>
    cases e' with
    | read file' count' span' =>
      obtain rfl : span = span' := hspan
      obtain ⟨hname, hdoc⟩ : file.name = file'.name ∧
          (count.map Expr.document).getD .null = (count'.map Expr.document).getD .null := by
        simpa [Expr.fields] using hfields
      rw [Expr.outline_read, Expr.outline_read, Ident.bare_eq hname]
      cases count with
      | none =>
        cases count' with
        | none => rfl
        | some count' => exact absurd hdoc.symm count'.document_ne_null
      | some count =>
        cases count' with
        | none => exact absurd hdoc count.document_ne_null
        | some count' =>
          have hcount := Expr.outline_eq count count' he.child he'.child hdoc
          rw [Option.map_some, Option.map_some, hcount]
    | _ => cases hindex
  | readLine file span =>
    cases e' with
    | readLine file' span' =>
      obtain rfl : span = span' := hspan
      have hname : file.name = file'.name := by simpa [Expr.fields] using hfields
      rw [Expr.outline, Expr.outline, Ident.bare_eq hname]
    | _ => cases hindex
  | atEnd file span =>
    cases e' with
    | atEnd file' span' =>
      obtain rfl : span = span' := hspan
      have hname : file.name = file'.name := by simpa [Expr.fields] using hfields
      rw [Expr.outline, Expr.outline, Ident.bare_eq hname]
    | _ => cases hindex

theorem Expr.outlines_eq (es es' : List Expr) (hes : ∀ e ∈ es, (Node.expr e).Clear)
    (hes' : ∀ e ∈ es', (Node.expr e).Clear) (h : Expr.documents es = Expr.documents es') :
    Expr.outlines es = Expr.outlines es' := by
  cases es with
  | nil =>
    cases es' with
    | nil => rfl
    | cons e' rest' => cases h
  | cons e rest =>
    cases es' with
    | nil => cases h
    | cons e' rest' =>
      obtain ⟨hhead, hrest⟩ := List.cons.inj h
      obtain ⟨he, hes⟩ := List.forall_mem_cons.mp hes
      obtain ⟨he', hes'⟩ := List.forall_mem_cons.mp hes'
      rw [Expr.outlines, Expr.outlines, Expr.outline_eq e e' he he' hhead,
        Expr.outlines_eq rest rest' hes hes' hrest]

end

/-- Expressions that may be missing. -/
theorem Expr.map_outline_eq (a b : Option Expr) (ha : ∀ e, a = some e → (Node.expr e).Clear)
    (hb : ∀ e, b = some e → (Node.expr e).Clear)
    (h : (a.map Expr.document).getD .null = (b.map Expr.document).getD .null) :
    a.map Expr.outline = b.map Expr.outline := by
  cases a with
  | none =>
    cases b with
    | none => rfl
    | some e' => exact absurd h.symm e'.document_ne_null
  | some e =>
    cases b with
    | none => exact absurd h e.document_ne_null
    | some e' => exact congrArg some (Expr.outline_eq e e' (ha e rfl) (hb e' rfl) h)

mutual

theorem Stmt.outline_eq (s s' : Stmt) (hs : (Node.stmt s).Clear) (hs' : (Node.stmt s').Clear)
    (h : s.document = s'.document) : s.outline = s'.outline := by
  rw [s.document_eq, s'.document_eq] at h
  obtain ⟨htype, hfields, hspan⟩ := Document.node_inj hs hs' h
  have hindex : s.ctorIdx = s'.ctorIdx := by
    rw [← s.indexOf_fields, htype, hfields, s'.indexOf_fields]
  cases s with
  | giveBack value span =>
    cases s' with
    | giveBack value' span' =>
      obtain rfl : span = span' := hspan
      have hvalue := Expr.map_outline_eq value value'
        (fun e he => hs.child (by simp [he]))
        (fun e he => hs'.child (by simp [he]))
        (by simpa [Stmt.fields] using hfields)
      rw [Stmt.outline, Stmt.outline, hvalue]
    | _ => cases hindex
  | leave span =>
    cases s' with
    | leave span' => rw [show span = span' from hspan]
    | _ => cases hindex
  | proceed span =>
    cases s' with
    | proceed span' => rw [show span = span' from hspan]
    | _ => cases hindex
  | «when» condition body others otherwise span =>
    cases s' with
    | «when» condition' body' others' otherwise' span' =>
      obtain rfl : span = span' := hspan
      obtain ⟨hdcondition, hdbody, hdothers, hdotherwise⟩ :
          condition.document = condition'.document ∧
          Body.documentOf body = Body.documentOf body' ∧
          OrWhen.documents others = OrWhen.documents others' ∧
          Otherwise.documentOf otherwise = Otherwise.documentOf otherwise' := by
        simpa [Stmt.fields] using hfields
      have hcondition := Expr.outline_eq condition condition' hs.child hs'.child hdcondition
      have hbody := Body.outline?_eq body body'
        (fun b hb => hs.child (by simp [hb]))
        (fun b hb => hs'.child (by simp [hb])) hdbody
      have hothers := OrWhen.outlines_eq others others'
        (fun b hb => hs.child (by simp [hb]))
        (fun b hb => hs'.child (by simp [hb])) hdothers
      have hotherwise := Otherwise.outline?_eq otherwise otherwise'
        (fun b hb => hs.child (by simp [hb]))
        (fun b hb => hs'.child (by simp [hb])) hdotherwise
      rw [Stmt.outline, Stmt.outline, hcondition, hbody, hothers, hotherwise]
    | _ => cases hindex
  | loop condition body span =>
    cases s' with
    | loop condition' body' span' =>
      obtain rfl : span = span' := hspan
      obtain ⟨hdcondition, hdbody⟩ : condition.document = condition'.document ∧
          Body.documentOf body = Body.documentOf body' := by
        simpa [Stmt.fields] using hfields
      have hcondition := Expr.outline_eq condition condition' hs.child hs'.child hdcondition
      have hbody := Body.outline?_eq body body'
        (fun b hb => hs.child (by simp [hb]))
        (fun b hb => hs'.child (by simp [hb])) hdbody
      rw [Stmt.outline, Stmt.outline, hcondition, hbody]
    | _ => cases hindex
  | range counter first last body span =>
    cases s' with
    | range counter' first' last' body' span' =>
      obtain rfl : span = span' := hspan
      obtain ⟨hname, hdfirst, hdlast, hdbody⟩ : counter.name = counter'.name ∧
          first.document = first'.document ∧ last.document = last'.document ∧
          Body.documentOf body = Body.documentOf body' := by
        simpa [Stmt.fields] using hfields
      have hfirst := Expr.outline_eq first first' hs.child hs'.child hdfirst
      have hlast := Expr.outline_eq last last' hs.child hs'.child hdlast
      have hbody := Body.outline?_eq body body'
        (fun b hb => hs.child (by simp [hb]))
        (fun b hb => hs'.child (by simp [hb])) hdbody
      rw [Stmt.outline, Stmt.outline, Ident.bare_eq hname, hfirst, hlast, hbody]
    | _ => cases hindex
  | assign target value span =>
    cases s' with
    | assign target' value' span' =>
      obtain rfl : span = span' := hspan
      obtain ⟨hname, hdvalue⟩ : target.name = target'.name ∧ value.document = value'.document := by
        simpa [Stmt.fields] using hfields
      have hvalue := Expr.outline_eq value value' hs.child hs'.child hdvalue
      rw [Stmt.outline, Stmt.outline, Ident.bare_eq hname, hvalue]
    | _ => cases hindex
  | advance target op span =>
    cases s' with
    | advance target' op' span' =>
      obtain rfl : span = span' := hspan
      obtain ⟨hname, hop⟩ : target.name = target'.name ∧ op.op.symbol = op'.op.symbol := by
        simpa [Stmt.fields] using hfields
      have hbare := Operator.bare_eq hs.child hs'.child hop
      rw [Stmt.outline, Stmt.outline, Ident.bare_eq hname, hbare]
    | _ => cases hindex
  | print arguments newline span =>
    cases s' with
    | print arguments' newline' span' =>
      obtain rfl : span = span' := hspan
      obtain ⟨hdocs, rfl⟩ : Expr.documents arguments = Expr.documents arguments' ∧
          newline = newline' := by
        simpa [Stmt.fields] using hfields
      have hall := Expr.outlines_eq arguments arguments'
        (fun e he => hs.child (by simp [he]))
        (fun e he => hs'.child (by simp [he])) hdocs
      rw [Stmt.outline, Stmt.outline, hall]
    | _ => cases hindex
  | openFile target path mode span =>
    cases s' with
    | openFile target' path' mode' span' =>
      obtain rfl : span = span' := hspan
      obtain ⟨hname, hdpath, hdmode⟩ : target.name = target'.name ∧ path.document = path'.document ∧
          mode.document = mode'.document := by
        simpa [Stmt.fields] using hfields
      have hpath := Expr.outline_eq path path' hs.child hs'.child hdpath
      have hmode := Expr.outline_eq mode mode' hs.child hs'.child hdmode
      rw [Stmt.outline, Stmt.outline, Ident.bare_eq hname, hpath, hmode]
    | _ => cases hindex
  | closeFile file span =>
    cases s' with
    | closeFile file' span' =>
      obtain rfl : span = span' := hspan
      have hname : file.name = file'.name := by simpa [Stmt.fields] using hfields
      rw [Stmt.outline, Stmt.outline, Ident.bare_eq hname]
    | _ => cases hindex
  | write file value newline span =>
    cases s' with
    | write file' value' newline' span' =>
      obtain rfl : span = span' := hspan
      obtain rfl : newline = newline' := by
        cases newline <;> cases newline' <;> first | rfl | simp [Stmt.nodeType] at htype
      obtain ⟨hname, hdvalue⟩ : file.name = file'.name ∧ value.document = value'.document := by
        simpa [Stmt.fields] using hfields
      have hvalue := Expr.outline_eq value value' hs.child hs'.child hdvalue
      rw [Stmt.outline, Stmt.outline, Ident.bare_eq hname, hvalue]
    | _ => cases hindex
  | allocate target size span =>
    cases s' with
    | allocate target' size' span' =>
      obtain rfl : span = span' := hspan
      obtain ⟨hname, hdsize⟩ : target.name = target'.name ∧ size.document = size'.document := by
        simpa [Stmt.fields] using hfields
      have hsize := Expr.outline_eq size size' hs.child hs'.child hdsize
      rw [Stmt.outline, Stmt.outline, Ident.bare_eq hname, hsize]
    | _ => cases hindex
  | collect target elements span =>
    cases s' with
    | collect target' elements' span' =>
      obtain rfl : span = span' := hspan
      obtain ⟨hname, hdocs⟩ : target.name = target'.name ∧
          Expr.documents elements = Expr.documents elements' := by
        simpa [Stmt.fields] using hfields
      have hall := Expr.outlines_eq elements elements'
        (fun e he => hs.child (by simp [he]))
        (fun e he => hs'.child (by simp [he])) hdocs
      rw [Stmt.outline, Stmt.outline, Ident.bare_eq hname, hall]
    | _ => cases hindex
  | update array index slot value span =>
    cases s' with
    | update array' index' slot' value' span' =>
      obtain rfl : span = span' := hspan
      obtain ⟨hdslot, hdvalue⟩ : (Expr.element array index slot).document =
          (Expr.element array' index' slot').document ∧ value.document = value'.document := by
        simpa [Stmt.fields] using hfields
      have hslot := Expr.outline_eq (.element array index slot) (.element array' index' slot')
        hs.child hs'.child hdslot
      have hvalue := Expr.outline_eq value value' hs.child hs'.child hdvalue
      rw [Expr.outline, Expr.outline, Expr.element.injEq] at hslot
      obtain ⟨hname, hat, hspan⟩ := hslot
      rw [Stmt.outline, Stmt.outline, hname, hat, hspan, hvalue]
    | _ => cases hindex
  | split target source separator span =>
    cases s' with
    | split target' source' separator' span' =>
      obtain rfl : span = span' := hspan
      obtain ⟨hname, hdsource, hdseparator⟩ : target.name = target'.name ∧
          source.document = source'.document ∧ separator.document = separator'.document := by
        simpa [Stmt.fields] using hfields
      have hsource := Expr.outline_eq source source' hs.child hs'.child hdsource
      have hseparator := Expr.outline_eq separator separator' hs.child hs'.child hdseparator
      rw [Stmt.outline, Stmt.outline, Ident.bare_eq hname, hsource, hseparator]
    | _ => cases hindex
  | expr value =>
    cases s' with
    | expr value' =>
      have hvalue := Expr.outline_eq value value' hs.child hs'.child
        (by rw [value.document_eq, value'.document_eq]; exact h)
      rw [Stmt.outline, Stmt.outline, hvalue]
    | _ => cases hindex
termination_by structural s

theorem Stmt.outlines_eq (ss ss' : List Stmt) (hss : ∀ s ∈ ss, (Node.stmt s).Clear)
    (hss' : ∀ s ∈ ss', (Node.stmt s).Clear) (h : Stmt.documents ss = Stmt.documents ss') :
    Stmt.outlines ss = Stmt.outlines ss' := by
  cases ss with
  | nil =>
    cases ss' with
    | nil => rfl
    | cons s' rest' => cases h
  | cons s rest =>
    cases ss' with
    | nil => cases h
    | cons s' rest' =>
      obtain ⟨hhead, hrest⟩ := List.cons.inj h
      obtain ⟨hs, hss⟩ := List.forall_mem_cons.mp hss
      obtain ⟨hs', hss'⟩ := List.forall_mem_cons.mp hss'
      rw [Stmt.outlines, Stmt.outlines, Stmt.outline_eq s s' hs hs' hhead,
        Stmt.outlines_eq rest rest' hss hss' hrest]
termination_by structural ss

theorem Body.outline_eq (b b' : Body) (hb : (Node.body b).Clear) (hb' : (Node.body b').Clear)
    (h : b.document = b'.document) : b.outline = b'.outline := by
  rw [b.document_eq, b'.document_eq] at h
  obtain ⟨-, hfields, hspan⟩ := Document.node_inj hb hb' h
  cases b with
  | mk statements span =>
    cases b' with
    | mk statements' span' =>
      obtain rfl : span = span' := hspan
      have hall := Stmt.outlines_eq statements statements'
        (fun s hs => hb.child (by simp [hs]))
        (fun s hs => hb'.child (by simp [hs])) (by simpa using hfields)
      rw [Body.outline, Body.outline, hall]
termination_by structural b

theorem Body.outline?_eq (b b' : Option Body) (hb : ∀ c, b = some c → (Node.body c).Clear)
    (hb' : ∀ c, b' = some c → (Node.body c).Clear)
    (h : Body.documentOf b = Body.documentOf b') : Body.outline? b = Body.outline? b' := by
  cases b with
  | none =>
    cases b' with
    | none => rfl
    | some c' => exact absurd h.symm c'.document_ne_null
  | some c =>
    cases b' with
    | none => exact absurd h c.document_ne_null
    | some c' =>
      rw [Body.outline?, Body.outline?, Body.outline_eq c c' (hb c rfl) (hb' c' rfl) h]
termination_by structural b

theorem OrWhen.outlines_eq (bs bs' : List OrWhen) (hbs : ∀ b ∈ bs, (Node.orWhen b).Clear)
    (hbs' : ∀ b ∈ bs', (Node.orWhen b).Clear) (h : OrWhen.documents bs = OrWhen.documents bs') :
    OrWhen.outlines bs = OrWhen.outlines bs' := by
  cases bs with
  | nil =>
    cases bs' with
    | nil => rfl
    | cons b' rest' => cases h
  | cons b rest =>
    cases bs' with
    | nil => cases h
    | cons b' rest' =>
      obtain ⟨hhead, hrest⟩ := List.cons.inj h
      obtain ⟨hb, hrests⟩ := List.forall_mem_cons.mp hbs
      obtain ⟨hb', hrests'⟩ := List.forall_mem_cons.mp hbs'
      rw [b.document_eq, b'.document_eq] at hhead
      obtain ⟨-, hfields, hspan⟩ := Document.node_inj hb hb' hhead
      cases b with
      | mk condition body span =>
        cases b' with
        | mk condition' body' span' =>
          obtain rfl : span = span' := hspan
          obtain ⟨hdcondition, hdbody⟩ : condition.document = condition'.document ∧
              Body.documentOf body = Body.documentOf body' := by simpa using hfields
          have hcondition := Expr.outline_eq condition condition' hb.child hb'.child hdcondition
          have hbody := Body.outline?_eq body body'
            (fun b h => hb.child (by simp [h]))
            (fun b h => hb'.child (by simp [h])) hdbody
          rw [OrWhen.outlines, OrWhen.outlines, hcondition, hbody,
            OrWhen.outlines_eq rest rest' hrests hrests' hrest]
termination_by structural bs

theorem Otherwise.outline?_eq (b b' : Option Otherwise)
    (hb : ∀ c, b = some c → (Node.otherwise c).Clear)
    (hb' : ∀ c, b' = some c → (Node.otherwise c).Clear)
    (h : Otherwise.documentOf b = Otherwise.documentOf b') :
    Otherwise.outline? b = Otherwise.outline? b' := by
  cases b with
  | none =>
    cases b' with
    | none => rfl
    | some c' => exact absurd h.symm c'.document_ne_null
  | some c =>
    cases b' with
    | none => exact absurd h c.document_ne_null
    | some c' =>
      replace h : c.document = c'.document := h
      rw [c.document_eq, c'.document_eq] at h
      obtain ⟨-, hfields, hspan⟩ := Document.node_inj (hb c rfl) (hb' c' rfl) h
      cases c with
      | mk body span =>
        cases c' with
        | mk body' span' =>
          obtain rfl : span = span' := hspan
          have hbody := Body.outline?_eq body body'
            (fun b h => (hb _ rfl).child (by simp [h]))
            (fun b h => (hb' _ rfl).child (by simp [h]))
            (by simpa using hfields)
          rw [Otherwise.outline?, Otherwise.outline?, hbody]
termination_by structural b

end

end Kotoba
