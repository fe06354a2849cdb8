import Kotoba.Proofs.Text.Number
import Kotoba.Proofs.Text.Quoted
import Kotoba.Syntax.Export

/-! JSON texts can be read back: a document without floats is told by its text. -/
namespace Kotoba

theorem Text.Piece.char_injective {c d : Char} (h : (Piece.char c).bytes = (Piece.char d).bytes) :
    c = d := by
  have hs : String.singleton c = String.singleton d := String.toByteArray_inj.mp h
  simpa using congrArg String.toList hs

namespace Document

open Text (Escaped EndsNumeral)

theorem escaped_escapeChar (c : Char) : Escaped (.char c) (escapeChar c).toList := by
  have hofNat : Char.ofNat c.toNat = c := Char.ofNat_toNat c
  unfold escapeChar
  split
  · exact .short '"' (by decide)
  · exact .short '\\' (by decide)
  · exact .short 'n' (by decide)
  · exact .short 'r' (by decide)
  · exact .short 't' (by decide)
  iterate 5 exact .four _ (by decide)
  split
  · next h => exact (hofNat.symm.trans (congrArg _ h)) ▸ .short 'b' (by decide)
  · split
    · next h => exact (hofNat.symm.trans (congrArg _ h)) ▸ .short 'f' (by decide)
    · split
      · next h => simpa using Escaped.four c (by omega)
      · next hq hb _ _ _ _ _ _ _ _ _ _ h =>
        rw [String.toList_singleton]
        refine .plain c (fun heq => hq heq) (fun heq => hb heq) ?_
        rintro rfl
        exact h (by decide)

/-- The characters of a text as they stand between quotes. -/
def escapes (cs : List Char) : List Char := cs.flatMap fun c => (escapeChar c).toList

theorem toList_quoteText (s : String) :
    (quoteText s).toList = '"' :: (escapes s.toList ++ ['"']) := by
  have hfold : ∀ (cs : List Char) (acc : String),
      (cs.foldl (fun acc c => acc ++ escapeChar c) acc).toList = acc.toList ++ escapes cs := by
    intro cs
    induction cs with
    | nil => simp [escapes]
    | cons c cs ih =>
      intro acc
      rw [List.foldl_cons, ih]
      simp [escapes]
  rw [quoteText, String.toList_append, String.toList_append, hfold]
  rfl

private theorem escapes_cancel {cs ds x y : List Char}
    (h : escapes cs ++ '"' :: x = escapes ds ++ '"' :: y) : cs = ds ∧ x = y := by
  induction cs generalizing ds with
  | nil =>
    cases ds with
    | nil => exact ⟨rfl, (List.cons.inj h).2⟩
    | cons d ds =>
      obtain ⟨e, rest, he, hne⟩ := (escaped_escapeChar d).head_ne
      simp only [escapes, List.flatMap_nil, List.nil_append, List.flatMap_cons, he,
        List.cons_append] at h
      exact absurd (List.cons.inj h).1.symm hne
  | cons c cs ih =>
    cases ds with
    | nil =>
      obtain ⟨e, rest, he, hne⟩ := (escaped_escapeChar c).head_ne
      simp only [escapes, List.flatMap_nil, List.nil_append, List.flatMap_cons, he,
        List.cons_append] at h
      exact absurd (List.cons.inj h).1 hne
    | cons d ds =>
      simp only [escapes, List.flatMap_cons, List.append_assoc] at h
      obtain ⟨hbytes, hrest⟩ := (escaped_escapeChar c).cancel (escaped_escapeChar d) h
      obtain ⟨rfl, hxy⟩ := ih hrest
      exact ⟨by rw [Text.Piece.char_injective hbytes], hxy⟩

theorem quoteText_cancel {s t : String} {x y : List Char}
    (h : (quoteText s).toList ++ x = (quoteText t).toList ++ y) : s = t ∧ x = y := by
  rw [toList_quoteText, toList_quoteText] at h
  simp only [List.cons_append, List.append_assoc, List.nil_append, List.cons.injEq, true_and] at h
  obtain ⟨hchars, hxy⟩ := escapes_cancel h
  exact ⟨String.toList_inj.mp hchars, hxy⟩

section Entries

variable {α : Type} (render : α → Option String)

/-- The entries after the first, one a line. -/
def entries? (depth : Nat) : List α → Option String
  | [] => some ""
  | a :: rest => do
    let a ← render a
    let rest ← entries? depth rest
    some ("," ++ newline depth ++ a ++ rest)

/-- Entries between brackets. -/
def enclosed? (opening closing : String) (depth : Nat) : List α → Option String
  | [] => some (opening ++ closing)
  | a :: rest => do
    let a ← render a
    let rest ← entries? render (depth + 1) rest
    some (opening ++ newline (depth + 1) ++ a ++ rest ++ newline depth ++ closing)

variable {render} {good : α → Prop}

/-- Whether an entry is told from all good ones by its text, whatever follows. -/
def Told (render : α → Option String) (good : α → Prop) (a : α) : Prop :=
  ∀ {b s t x y}, good b → render a = some s → render b = some t → EndsNumeral x → EndsNumeral y →
    s.toList ++ x = t.toList ++ y → a = b ∧ x = y

private theorem toList_newline (depth : Nat) :
    (newline depth).toList = '\n' :: ("".pushn ' ' (2 * depth)).toList := by
  rw [newline, String.toList_append]
  rfl

/-- What follows an entry is another one or the end of the line. -/
private theorem entries?_ends {depth : Nat} {as : List α} {s : String}
    (h : entries? render depth as = some s) (x : List Char) :
    EndsNumeral (s.toList ++ '\n' :: x) := by
  cases as with
  | nil =>
    cases h
    exact Text.endsNumeral_cons rfl
  | cons a as =>
    simp only [entries?, Option.bind_eq_bind, Option.bind_eq_some_iff] at h
    obtain ⟨text, -, rest, -, hs⟩ := h
    cases hs
    simp only [String.toList_append]
    exact Text.endsNumeral_cons rfl

private theorem entries?_cancel {depth : Nat} {as bs : List α} {s t : String} {x y : List Char}
    (has : ∀ a ∈ as, Told render good a) (hbs : ∀ b ∈ bs, good b)
    (hs : entries? render depth as = some s) (ht : entries? render depth bs = some t)
    (h : s.toList ++ '\n' :: x = t.toList ++ '\n' :: y) : as = bs ∧ x = y := by
  induction as generalizing bs s t with
  | nil =>
    cases hs
    cases bs with
    | nil =>
      cases ht
      exact ⟨rfl, (List.cons.inj h).2⟩
    | cons b bs =>
      simp only [entries?, Option.bind_eq_bind, Option.bind_eq_some_iff] at ht
      obtain ⟨text, -, rest, -, ht⟩ := ht
      cases ht
      simp at h
  | cons a as ih =>
    obtain ⟨ha, has⟩ := List.forall_mem_cons.mp has
    simp only [entries?, Option.bind_eq_bind, Option.bind_eq_some_iff] at hs
    obtain ⟨text, htext, rest, hrest, hs⟩ := hs
    cases hs
    cases bs with
    | nil =>
      cases ht
      simp at h
    | cons b bs =>
      obtain ⟨hb, hrests⟩ := List.forall_mem_cons.mp hbs
      simp only [entries?, Option.bind_eq_bind, Option.bind_eq_some_iff] at ht
      obtain ⟨text', htext', rest', hrest', ht⟩ := ht
      cases ht
      simp only [String.toList_append, List.append_assoc, List.append_cancel_left_eq] at h
      obtain ⟨rfl, h⟩ := ha hb htext htext' (entries?_ends hrest x) (entries?_ends hrest' y) h
      obtain ⟨rfl, hxy⟩ := ih has hrests hrest hrest' h
      exact ⟨rfl, hxy⟩

theorem enclosed?_cancel {opening : String} (closing : Char) (hclosing : closing ≠ '\n')
    {depth : Nat} {as bs : List α} {s t : String} {x y : List Char}
    (has : ∀ a ∈ as, Told render good a) (hbs : ∀ b ∈ bs, good b)
    (hs : enclosed? render opening (String.singleton closing) depth as = some s)
    (ht : enclosed? render opening (String.singleton closing) depth bs = some t)
    (h : s.toList ++ x = t.toList ++ y) : as = bs ∧ x = y := by
  cases as with
  | nil =>
    cases hs
    cases bs with
    | nil =>
      cases ht
      exact ⟨rfl, List.append_cancel_left h⟩
    | cons b bs =>
      simp only [enclosed?, Option.bind_eq_bind, Option.bind_eq_some_iff] at ht
      obtain ⟨text, -, rest, -, ht⟩ := ht
      cases ht
      simp only [String.toList_append, List.append_assoc, List.append_cancel_left_eq,
        toList_newline, String.toList_singleton, List.cons_append] at h
      exact absurd (List.cons.inj h).1 hclosing
  | cons a as =>
    obtain ⟨ha, has⟩ := List.forall_mem_cons.mp has
    simp only [enclosed?, Option.bind_eq_bind, Option.bind_eq_some_iff] at hs
    obtain ⟨text, htext, rest, hrest, hs⟩ := hs
    cases hs
    cases bs with
    | nil =>
      cases ht
      simp only [String.toList_append, List.append_assoc, List.append_cancel_left_eq,
        toList_newline, String.toList_singleton, List.cons_append] at h
      exact absurd (List.cons.inj h).1.symm hclosing
    | cons b bs =>
      obtain ⟨hb, hrests⟩ := List.forall_mem_cons.mp hbs
      simp only [enclosed?, Option.bind_eq_bind, Option.bind_eq_some_iff] at ht
      obtain ⟨text', htext', rest', hrest', ht⟩ := ht
      cases ht
      simp only [String.toList_append, List.append_assoc, List.append_cancel_left_eq] at h
      rw [toList_newline depth] at h
      simp only [List.cons_append] at h
      obtain ⟨rfl, h⟩ := ha hb htext htext' (entries?_ends hrest _) (entries?_ends hrest' _) h
      obtain ⟨rfl, h⟩ := entries?_cancel has hrests hrest hrest' h
      exact ⟨rfl, List.append_cancel_left (List.append_cancel_left h)⟩

theorem exists_enclosed? {opening closing : String} {depth : Nat} {as : List α}
    (h : ∀ a ∈ as, ∃ s, render a = some s) :
    ∃ s, enclosed? render opening closing depth as = some s := by
  have hentries : ∀ (depth : Nat) {as : List α}, (∀ a ∈ as, ∃ s, render a = some s) →
      ∃ s, entries? render depth as = some s := by
    intro depth as h
    induction as with
    | nil => exact ⟨_, rfl⟩
    | cons a as ih =>
      obtain ⟨⟨s, hs⟩, has⟩ := List.forall_mem_cons.mp h
      obtain ⟨rest, hrest⟩ := ih has
      exact ⟨_, by rw [entries?, hs, hrest]; rfl⟩
  cases as with
  | nil => exact ⟨_, rfl⟩
  | cons a as =>
    obtain ⟨⟨s, hs⟩, has⟩ := List.forall_mem_cons.mp h
    obtain ⟨rest, hrest⟩ := hentries (depth + 1) has
    exact ⟨_, by rw [enclosed?, hs, hrest]; rfl⟩

end Entries

/-- A field as it is written. -/
def field? (depth : Nat) (field : String × Document) : Option String := do
  let value ← field.2.render? depth
  some (quoteText field.1 ++ ": " ++ value)

theorem told_field {good : Document → Prop} {depth : Nat} {field : String × Document}
    (h : Told (render? depth) good field.2) : Told (field? depth) (fun f => good f.2) field := by
  intro field' s t x y hgood hs ht hx hy hst
  simp only [field?, Option.bind_eq_bind, Option.bind_eq_some_iff] at hs ht
  obtain ⟨value, hvalue, hs⟩ := hs
  obtain ⟨value', hvalue', ht⟩ := ht
  cases hs
  cases ht
  simp only [String.toList_append, List.append_assoc] at hst
  obtain ⟨hkey, hst⟩ := quoteText_cancel hst
  obtain ⟨hvalue, hxy⟩ := h hgood hvalue hvalue' hx hy (List.append_cancel_left hst)
  exact ⟨Prod.ext hkey hvalue, hxy⟩

theorem renderItems?_eq (depth : Nat) (items : List Document) :
    renderItems? depth items = entries? (render? depth) depth items := by
  induction items with
  | nil => rfl
  | cons item rest ih => rw [renderItems?, entries?, ih]

theorem renderFields?_eq (depth : Nat) (fields : List (String × Document)) :
    renderFields? depth fields = entries? (field? depth) depth fields := by
  induction fields with
  | nil => rfl
  | cons field rest ih =>
    obtain ⟨key, value⟩ := field
    rw [renderFields?, entries?, ih, field?]
    cases value.render? depth with
    | none => rfl
    | some text => simp [String.append_assoc]

theorem render?_list (depth : Nat) (items : List Document) :
    (list items).render? depth = enclosed? (render? (depth + 1)) "[" "]" depth items := by
  cases items with
  | nil => rfl
  | cons item rest => rw [render?, enclosed?, renderItems?_eq]

theorem render?_object (depth : Nat) (fields : List (String × Document)) :
    (object fields).render? depth =
      enclosed? (field? (depth + 1)) "\x7b" "\x7d" depth fields := by
  cases fields with
  | nil => rfl
  | cons field rest =>
    obtain ⟨key, value⟩ := field
    rw [render?, enclosed?, renderFields?_eq, field?]
    cases value.render? (depth + 1) with
    | none => rfl
    | some text => simp [String.append_assoc]

/-- Documents without floats. -/
inductive Exact : Document → Prop
  | null : Exact .null
  | bool (value : Bool) : Exact (.bool value)
  | int (value : Int64) : Exact (.int value)
  | text (value : String) : Exact (.text value)
  | list {items : List Document} (each : ∀ d ∈ items, Exact d) : Exact (.list items)
  | object {fields : List (String × Document)} (each : ∀ f ∈ fields, Exact f.2) :
    Exact (.object fields)

/-- Which constructor a document is made by. -/
inductive Form where
  | null
  | bool
  | int
  | float
  | text
  | list
  | object
deriving DecidableEq

def form : Document → Form
  | null => .null
  | bool _ => .bool
  | int _ => .int
  | float _ => .float
  | text _ => .text
  | list _ => .list
  | object _ => .object

/-- The form of a document without floats, by the first character of its text. -/
def Form.ofText : List Char → Form
  | 'n' :: _ => .null
  | 't' :: _ | 'f' :: _ => .bool
  | '"' :: _ => .text
  | '[' :: _ => .list
  | '\x7b' :: _ => .object
  | _ => .int

private theorem Form.ofText_numeral {c : Char} (h : Text.isNumeral c) (rest : List Char) :
    Form.ofText (c :: rest) = .int := by
  unfold Form.ofText
  split <;> simp_all [Text.isNumeral]

private theorem enclosed?_head {α : Type} {render : α → Option String} {opening closing : String}
    {depth : Nat} {as : List α} {s : String}
    (h : enclosed? render opening closing depth as = some s) :
    ∃ rest, s.toList = opening.toList ++ rest := by
  cases as with
  | nil =>
    cases h
    exact ⟨_, String.toList_append⟩
  | cons a as =>
    simp only [enclosed?, Option.bind_eq_bind, Option.bind_eq_some_iff] at h
    obtain ⟨text, -, rest, -, hs⟩ := h
    cases hs
    simp only [String.toList_append, List.append_assoc]
    exact ⟨_, rfl⟩

theorem form_ofText {d : Document} (hd : d.Exact) {depth : Nat} {s : String}
    (h : d.render? depth = some s) (x : List Char) : Form.ofText (s.toList ++ x) = d.form := by
  cases hd with
  | null => cases h; rfl
  | bool value =>
    cases h
    cases value <;> rfl
  | int value =>
    cases h
    obtain ⟨c, rest, hc⟩ := List.exists_cons_of_ne_nil (Text.toString_int_ne_nil value.toInt)
    have hnumeral : Text.isNumeral c := Text.isNumeral_of_mem (hc ▸ List.mem_cons_self)
    rw [hc]
    exact Form.ofText_numeral hnumeral _
  | text value =>
    cases h
    rw [toList_quoteText]
    rfl
  | list each =>
    rw [render?_list] at h
    obtain ⟨rest, hs⟩ := enclosed?_head h
    rw [hs]
    rfl
  | object each =>
    rw [render?_object] at h
    obtain ⟨rest, hs⟩ := enclosed?_head h
    rw [hs]
    rfl

/-- Documents whose texts are the same, up to something that follows, have the same form. -/
private theorem form_eq {d d' : Document} (hd : d.Exact) (hd' : d'.Exact) {depth : Nat}
    {s t : String} {x y : List Char} (hs : d.render? depth = some s)
    (ht : d'.render? depth = some t) (h : s.toList ++ x = t.toList ++ y) : d.form = d'.form := by
  rw [← form_ofText hd hs x, h, form_ofText hd' ht y]

/-- A document without floats is told from all others by its text, whatever follows. -/
theorem told_of_exact {d : Document} (hd : d.Exact) (depth : Nat) :
    Told (render? depth) Exact d := by
  induction hd generalizing depth with
  | null =>
    intro d' s t x y hd' hs ht hx hy h
    have hform := form_eq .null hd' hs ht h
    cases hd' <;> cases hform
    cases hs
    cases ht
    exact ⟨rfl, List.append_cancel_left h⟩
  | bool value =>
    intro d' s t x y hd' hs ht hx hy h
    have hform := form_eq (.bool value) hd' hs ht h
    cases hd' <;> cases hform
    cases hs
    cases ht
    next value' => cases value <;> cases value' <;> simp_all
  | int value =>
    intro d' s t x y hd' hs ht hx hy h
    have hform := form_eq (.int value) hd' hs ht h
    cases hd' <;> cases hform
    cases hs
    cases ht
    obtain ⟨hvalue, hxy⟩ := Text.toString_int_cancel hx hy h
    exact ⟨by rw [Int64.toInt_inj.mp hvalue], hxy⟩
  | text value =>
    intro d' s t x y hd' hs ht hx hy h
    have hform := form_eq (.text value) hd' hs ht h
    cases hd' <;> cases hform
    cases hs
    cases ht
    obtain ⟨rfl, hxy⟩ := quoteText_cancel h
    exact ⟨rfl, hxy⟩
  | list each ih =>
    intro d' s t x y hd' hs ht hx hy h
    have hform := form_eq (.list each) hd' hs ht h
    cases hd' <;> cases hform
    next items' each' =>
    rw [render?_list] at hs ht
    obtain ⟨rfl, hxy⟩ := enclosed?_cancel ']' (by decide)
      (fun d hd => ih d hd (depth + 1)) each' hs ht h
    exact ⟨rfl, hxy⟩
  | object each ih =>
    intro d' s t x y hd' hs ht hx hy h
    have hform := form_eq (.object each) hd' hs ht h
    cases hd' <;> cases hform
    next fields' each' =>
    rw [render?_object] at hs ht
    obtain ⟨rfl, hxy⟩ := enclosed?_cancel '\x7d' (by decide)
      (fun f hf => told_field (ih f hf (depth + 1))) each' hs ht h
    exact ⟨rfl, hxy⟩

/-- A document without floats has a text. -/
theorem exists_render? {d : Document} (hd : d.Exact) (depth : Nat) :
    ∃ s, d.render? depth = some s := by
  induction hd generalizing depth with
  | null | bool | int | text => exact ⟨_, rfl⟩
  | list each ih =>
    rw [render?_list]
    exact exists_enclosed? fun d hd => ih d hd (depth + 1)
  | object each ih =>
    rw [render?_object]
    refine exists_enclosed? fun f hf => ?_
    obtain ⟨value, hvalue⟩ := ih f hf (depth + 1)
    exact ⟨_, by rw [field?, hvalue]; rfl⟩

theorem json?_injective {d d' : Document} (hd : d.Exact) (hd' : d'.Exact)
    (h : d.json? = d'.json?) : d = d' := by
  obtain ⟨s, hs⟩ := exists_render? hd 0
  have hs' : d'.render? 0 = some s := h.symm.trans hs
  exact (told_of_exact hd 0 hd' hs hs' Text.endsNumeral_nil Text.endsNumeral_nil rfl).1

end Document

end Kotoba
