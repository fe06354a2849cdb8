import Kotoba.Proofs.Value.Unfolding

/-! The content of a scope of data can be read back. It tells the name of the scope, the names that
are bound, and their values as far as one looks, also if arrays are shared or inside themselves. -/
namespace Kotoba.Scope

/-- A scope in which only scalars and arrays of them are found, and whose names, like all
identifiers, have none of the marks that end them in the content. -/
structure OfData (a : Scope) (s : Store) : Prop where
  name : '\x00' ∉ a.name.toList
  names : ∀ binding ∈ a.symbols, '=' ∉ binding.1.toList
  data : ∀ binding ∈ a.symbols, ∀ v, s.Reaches binding.2.value v → v.isDatum

theorem OfData.of_elements {a : Scope} {s : Store} (hname : '\x00' ∉ a.name.toList)
    (hnames : ∀ binding ∈ a.symbols, '=' ∉ binding.1.toList)
    (hvalues : ∀ binding ∈ a.symbols, binding.2.value.isDatum)
    (helements : ∀ elements ∈ s.arrays, ∀ v ∈ elements, v.isDatum) : a.OfData s where
  name := hname
  names := hnames
  data binding hb _ hv := Value.isDatum_of_reaches helements (hvalues binding hb) hv

/-- A binding of data as it is written in the content of a scope. -/
def dataChars (s : Store) (binding : String × Symbol) : List Char :=
  (binding.1 ++ "=" ++ binding.2.kind.name ++ ":").toList ++ (s.unfold [] binding.2.value).text ++
    ['\x00']

/-- Bindings of a name to values of a kind that agree, however far one looks. -/
structure SameBinding (s t : Store) (a b : String × Symbol) : Prop where
  name : a.1 = b.1
  kind : a.2.value.kind = b.2.value.kind
  agree : ∀ depth, s.Agree t depth a.2.value b.2.value

theorem colon_not_mem_name (kind : Symbol.Kind) : ':' ∉ kind.name.toList := by
  cases kind with
  | other code =>
    have hcode : ':' ∉ (toString code).toList := fun h => by
      have hnumeral := Text.isNumeral_of_mem h
      revert hnumeral
      decide
    show ':' ∉ ("unknown_symbol_" ++ toString code).toList
    simpa using hcode
  | _ => decide

/-- The first binding is told, whatever follows. -/
theorem dataChars_cancel {s t : Store} {a b : String × Symbol} {x y : List Char}
    (ha : '=' ∉ a.1.toList) (hb : '=' ∉ b.1.toList)
    (hv : ∀ v, s.Reaches a.2.value v → v.isDatum) (hw : ∀ v, t.Reaches b.2.value v → v.isDatum)
    (h : dataChars s a ++ x = dataChars t b ++ y) : SameBinding s t a b ∧ x = y := by
  simp only [dataChars, String.toList_append, List.append_assoc] at h
  obtain ⟨hname, hkind⟩ := append_mark_inj ha hb h
  obtain ⟨-, hvalue⟩ := append_mark_inj (colon_not_mem_name _) (colon_not_mem_name _) hkind
  obtain ⟨hagree, hrest⟩ := Store.agree_of_text hv hw (Text.endsNumeral_cons rfl)
    (Text.endsNumeral_cons rfl) hvalue
  have hsame : SameBinding s t a b :=
    ⟨String.toList_inj.mp hname, (hagree 0).kind_eq, hagree⟩
  exact ⟨hsame, (List.cons.inj hrest).2⟩

theorem dataChars_ne_nil (s : Store) (binding : String × Symbol) : dataChars s binding ≠ [] := by
  simp [dataChars]

theorem bindings_of_dataChars {s t : Store} {as bs : List (String × Symbol)}
    (ha : ∀ a ∈ as, '=' ∉ a.1.toList ∧ ∀ v, s.Reaches a.2.value v → v.isDatum)
    (hb : ∀ b ∈ bs, '=' ∉ b.1.toList ∧ ∀ v, t.Reaches b.2.value v → v.isDatum)
    (h : as.flatMap (dataChars s) = bs.flatMap (dataChars t)) :
    List.Forall₂ (SameBinding s t) as bs := by
  induction as generalizing bs with
  | nil =>
    cases bs with
    | nil => exact .nil
    | cons b bs => exact absurd (List.append_eq_nil_iff.mp h.symm).1 (dataChars_ne_nil t b)
  | cons a as ih =>
    cases bs with
    | nil => exact absurd (List.append_eq_nil_iff.mp h).1 (dataChars_ne_nil s a)
    | cons b bs =>
      rw [List.forall_mem_cons] at ha hb
      obtain ⟨hsame, hrest⟩ := dataChars_cancel ha.1.1 hb.1.1 ha.1.2 hb.1.2 h
      exact .cons hsame (ih ha.2 hb.2 hrest)

/-- Scopes of data with the same content have the same name, and bind the same names, in the same
order, to values that agree however far one looks. -/
theorem same_of_content {a b : Scope} {s t : Store} (ha : a.OfData s) (hb : b.OfData t)
    (h : a.content s = b.content t) :
    a.name = b.name ∧ List.Forall₂ (SameBinding s t) a.symbols b.symbols := by
  have hleft := content_of_texts (fun v => (s.unfold [] v).text) fun x hx =>
    Store.serialize_eq (ha.data x hx)
  have hright := content_of_texts (fun v => (t.unfold [] v).text) fun x hx =>
    Store.serialize_eq (hb.data x hx)
  rw [hleft, hright] at h
  obtain ⟨hname, hbindings⟩ :=
    append_mark_inj ha.name hb.name (String.ofList_injective (Bytes.ofString_injective h))
  refine ⟨String.toList_inj.mp hname, bindings_of_dataChars ?_ ?_ hbindings⟩
  · exact fun x hx => ⟨ha.names x hx, ha.data x hx⟩
  · exact fun x hx => ⟨hb.names x hx, hb.data x hx⟩

/-- A store in which an array holds itself and, twice, another one. -/
private def shared : Store where
  arrays := #[#[.array 0, .string "],", .array 1, .array 1], #[.int 7, .null]]

/-- A store that looks the same from its last array, though nothing is held twice. -/
private def unshared : Store where
  arrays := #[#[.int 7, .null], #[.int 7, .null], #[.array 2, .string "],", .array 0, .array 1]]

/-- That arrays are shared is not told, but nothing depends on it. -/
theorem same_of_content_shared :
    let a : Scope := { name := "f", symbols := [("ring", .of (.array 0)), ("size", .of (.int 4))] }
    let b : Scope := { name := "f", symbols := [("ring", .of (.array 2)), ("size", .of (.int 4))] }
    a.content shared = b.content unshared ∧ a.OfData shared ∧ b.OfData unshared ∧
      List.Forall₂ (SameBinding shared unshared) a.symbols b.symbols := by
  intro a b
  have hcontent : a.content shared = b.content unshared := by decide +kernel
  have ha : a.OfData shared := .of_elements (by decide) (by decide) (by decide) (by decide)
  have hb : b.OfData unshared := .of_elements (by decide) (by decide) (by decide) (by decide)
  exact ⟨hcontent, ha, hb, (same_of_content ha hb hcontent).2⟩

end Kotoba.Scope
