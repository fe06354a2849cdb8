import Kotoba.Proofs.Text.Number
import Kotoba.Proofs.Text.Quoted
import Kotoba.Scope.Arena
import Mathlib.Data.List.Forall2

/-! What the content of a scope tells: its name, and the values its names are bound to, as long as
these are scalars. Of any values it tells no more than their tagged texts. -/
namespace Kotoba

namespace Value

/-- Values whose content is all there is to them. -/
def isScalar : Value → Bool
  | null | int _ | string _ | bool _ => true
  | _ => false

/-- The tagged text of a scalar. -/
def tag : Value → String
  | int n => "integer:" ++ toString n.toInt
  | string text => "string:" ++ String.ofList (Text.quoted text)
  | bool b => "boolean:" ++ if b then "HAI" else "IIE"
  | _ => "null:null"

/-- Scalars are written without a look at the store. -/
theorem serialize_of_isScalar {v : Value} (h : v.isScalar) (s : Store) :
    s.serialize v = Bytes.ofString v.tag := by
  cases v with
  | null => rfl
  | int n => exact (Bytes.ofString_append _ _).symm
  | string text =>
    show Bytes.ofString "string:" ++ Text.quote text = _
    rw [Text.quote_eq_ofString]
    exact (Bytes.ofString_append _ _).symm
  | bool b => cases b <;> rfl
  | _ => cases h

/-- The tagged text of a scalar tells it, whatever follows that does not go on with a number. -/
theorem tag_cancel {v w : Value} {x y : List Char} (hv : v.isScalar) (hw : w.isScalar)
    (hx : Text.EndsNumeral x) (hy : Text.EndsNumeral y)
    (h : v.tag.toList ++ x = w.tag.toList ++ y) : v = w ∧ x = y := by
  cases v with
  | null =>
    cases w with
    | null => exact ⟨rfl, List.append_cancel_left h⟩
    | int | string | bool => simp [tag] at h
    | _ => cases hw
  | int m =>
    cases w with
    | int n =>
      simp only [tag, String.toList_append, List.append_assoc, List.append_cancel_left_eq] at h
      obtain ⟨hmn, hxy⟩ := Text.toString_int_cancel hx hy h
      exact ⟨by rw [Int64.toInt_inj.mp hmn], hxy⟩
    | null | string | bool => simp [tag] at h
    | _ => cases hw
  | string text =>
    cases w with
    | string other =>
      simp only [tag, String.toList_append, String.toList_ofList, List.append_assoc,
        List.append_cancel_left_eq] at h
      obtain ⟨rfl, hxy⟩ := Text.quoted_cancel h
      exact ⟨rfl, hxy⟩
    | null | int | bool => simp [tag] at h
    | _ => cases hw
  | bool b =>
    cases w with
    | bool c => cases b <;> cases c <;> simp_all [tag]
    | null | int | string => simp [tag] at h
    | _ => cases hw
  | _ => cases hv

/-- The kind of the symbol that fits a value, by the first two bytes of its tagged text. -/
def kindOfTag (bytes : Bytes) : Symbol.Kind :=
  if bytes.toList.take 2 = [97, 114] then .array
  else if bytes.toList.take 2 = [102, 117] then .function
  else .plain

private theorem kindOfTag_append (kind : String) (rest : Bytes)
    (h : 2 ≤ (Bytes.ofString kind).toList.length) :
    kindOfTag (Bytes.ofString kind ++ rest) = kindOfTag (Bytes.ofString kind) := by
  have happend : (Bytes.ofString kind ++ rest).toList =
      (Bytes.ofString kind).toList ++ rest.toList := by simp [Bytes.toList]
  unfold kindOfTag
  rw [happend, List.take_append_of_le_length h]

theorem kindOfTag_serialize (s : Store) (v : Value) :
    kindOfTag (s.serialize v) = (Symbol.of v).kind := by
  cases v with
  | nothing => exact kindOfTag_append "null" .empty (by decide)
  | null => exact kindOfTag_append "null:" _ (by decide)
  | int n => exact kindOfTag_append "integer:" _ (by decide)
  | float x => exact kindOfTag_append "float:" _ (by decide)
  | string text => exact kindOfTag_append "string:" _ (by decide)
  | bool b => exact kindOfTag_append "boolean:" _ (by decide)
  | array index =>
    have happend : s.serialize (.array index) = Bytes.ofString "array:[" ++ (_ ++ _) :=
      ByteArray.append_assoc
    rw [happend]
    exact kindOfTag_append "array:[" _ (by decide)
  | function f => exact kindOfTag_append "function:" _ (by decide)
  | reference name => exact kindOfTag_append "reference:" _ (by decide)
  | file index =>
    simp only [Store.serialize, Store.serializeWithin, Store.briefTag]
    cases s.files[index]? with
    | some h =>
      dsimp only
      rw [ByteArray.append_assoc]
      exact kindOfTag_append "file:" _ (by decide)
    | none =>
      have happend := Bytes.ofString_append "file:" (toString index)
      exact (congrArg kindOfTag happend).trans (kindOfTag_append "file:" _ (by decide))

end Value

namespace Scope

/-- A binding as it is written in the content of a scope. -/
def bindingChars (binding : String × Symbol) : List Char :=
  (binding.1 ++ "=" ++ binding.2.kind.name ++ ":" ++ binding.2.value.tag).toList ++ ['\x00']

/-- The content of a scope, as characters. -/
def contentChars (name : String) (bindings : List (String × Symbol)) : List Char :=
  name.toList ++ '\x00' :: bindings.flatMap bindingChars

private theorem foldl_of_texts (store : Store) (text : Value → List Char)
    {bindings : List (String × Symbol)} (cs : List Char)
    (h : ∀ binding ∈ bindings, store.serialize binding.2.value =
      Bytes.ofString (String.ofList (text binding.2.value))) :
    bindings.foldl (fun acc (name, symbol) =>
      acc ++ Bytes.ofString (name ++ "=" ++ symbol.kind.name ++ ":") ++
        store.serialize symbol.value ++ "\x00") (Bytes.ofString (String.ofList cs)) =
      Bytes.ofString (String.ofList (cs ++ bindings.flatMap fun binding =>
        (binding.1 ++ "=" ++ binding.2.kind.name ++ ":").toList ++ text binding.2.value ++
          ['\x00'])) := by
  induction bindings generalizing cs with
  | nil => simp
  | cons binding rest ih =>
    obtain ⟨name, symbol⟩ := binding
    simp only [List.mem_cons, forall_eq_or_imp] at h
    have happend : Bytes.ofString (String.ofList cs) ++
        Bytes.ofString (name ++ "=" ++ symbol.kind.name ++ ":") ++
        store.serialize symbol.value ++ Bytes.ofString "\x00" =
        Bytes.ofString (String.ofList (cs ++ ((name ++ "=" ++ symbol.kind.name ++ ":").toList ++
          text symbol.value ++ ['\x00']))) := by
      rw [h.1, ← Bytes.ofString_append, ← Bytes.ofString_append, ← Bytes.ofString_append,
        String.ofList_append, String.ofList_append, String.ofList_append, String.ofList_toList]
      simp only [String.append_assoc]
    rw [List.foldl_cons]
    dsimp only
    rw [happend, ih _ h.2]
    simp

/-- If tagged texts are valid, so is the content of a scope. -/
theorem content_of_texts {s : Scope} {store : Store} (text : Value → List Char)
    (h : ∀ binding ∈ s.symbols, store.serialize binding.2.value =
      Bytes.ofString (String.ofList (text binding.2.value))) :
    s.content store = Bytes.ofString (String.ofList (s.name.toList ++ '\x00' ::
      s.symbols.flatMap fun binding =>
        (binding.1 ++ "=" ++ binding.2.kind.name ++ ":").toList ++ text binding.2.value ++
          ['\x00'])) := by
  have hname : Bytes.ofString s.name ++ Bytes.ofString "\x00" =
      Bytes.ofString (String.ofList (s.name.toList ++ ['\x00'])) := by
    rw [String.ofList_append, String.ofList_toList, Bytes.ofString_append]
  rw [content, hname, foldl_of_texts store text _ h]
  simp

/-- The content of a scope in which all values are scalars. -/
theorem content_of_isScalar {s : Scope} (h : ∀ binding ∈ s.symbols, binding.2.value.isScalar)
    (store : Store) :
    s.content store = Bytes.ofString (String.ofList (contentChars s.name s.symbols)) := by
  have htext : ∀ binding ∈ s.symbols, store.serialize binding.2.value =
      Bytes.ofString (String.ofList binding.2.value.tag.toList) := fun binding hb => by
    rw [Value.serialize_of_isScalar (h binding hb), String.ofList_toList]
  have hbinding : ∀ binding : String × Symbol, bindingChars binding =
      (binding.1 ++ "=" ++ binding.2.kind.name ++ ":").toList ++ binding.2.value.tag.toList ++
        ['\x00'] := fun binding => by simp [bindingChars]
  rw [content_of_texts (fun v => v.tag.toList) htext, contentChars]
  simp only [← hbinding]

/-- What stands before the first mark is told apart from what comes after it. -/
theorem append_mark_inj {mark : Char} {a b x y : List Char} (ha : mark ∉ a) (hb : mark ∉ b)
    (h : a ++ mark :: x = b ++ mark :: y) : a = b ∧ x = y := by
  induction a generalizing b with
  | nil =>
    cases b with
    | nil => exact ⟨rfl, (List.cons.inj h).2⟩
    | cons c b => exact absurd (List.cons.inj h).1 fun hc => hb (hc ▸ List.mem_cons_self)
  | cons c a ih =>
    cases b with
    | nil => exact absurd (List.cons.inj h).1.symm fun hc => ha (hc ▸ List.mem_cons_self)
    | cons d b =>
      obtain ⟨rfl, hrest⟩ := List.cons.inj h
      simp only [List.mem_cons, not_or] at ha hb
      obtain ⟨rfl, hx⟩ := ih ha.2 hb.2 hrest
      exact ⟨rfl, hx⟩

/-- Contents tell the names of their scopes. -/
theorem name_of_contentChars {m n : String} {as bs : List (String × Symbol)}
    (hm : '\x00' ∉ m.toList) (hn : '\x00' ∉ n.toList)
    (h : contentChars m as = contentChars n bs) :
    m = n ∧ as.flatMap bindingChars = bs.flatMap bindingChars := by
  obtain ⟨hname, hrest⟩ := append_mark_inj hm hn h
  exact ⟨String.toList_inj.mp hname, hrest⟩

/-- Contents tell the values of the names that are bound. -/
theorem bindings_of_chars {as bs : List (String × Symbol)} (hkeys : as.map (·.1) = bs.map (·.1))
    (has : ∀ a ∈ as, a.2.value.isScalar ∧ a.2 = .of a.2.value)
    (hbs : ∀ b ∈ bs, b.2.value.isScalar ∧ b.2 = .of b.2.value)
    (h : as.flatMap bindingChars = bs.flatMap bindingChars) : as = bs := by
  induction as generalizing bs with
  | nil =>
    cases bs with
    | nil => rfl
    | cons b bs => cases hkeys
  | cons a as ih =>
    cases bs with
    | nil => cases hkeys
    | cons b bs =>
      obtain ⟨x, s⟩ := a
      obtain ⟨y, t⟩ := b
      simp only [List.map_cons, List.cons.injEq] at hkeys
      obtain ⟨rfl, hkeys⟩ := hkeys
      simp only [List.mem_cons, forall_eq_or_imp] at has hbs
      have hkind : ∀ {s : Symbol}, s.value.isScalar → s = .of s.value → s = ⟨.plain, s.value⟩ := by
        intro s hs heq
        rw [heq]
        cases hv : s.value <;> rw [hv] at hs <;> first | rfl | cases hs
      have hs := hkind has.1.1 has.1.2
      have ht := hkind hbs.1.1 hbs.1.2
      rw [hs, ht] at h ⊢
      simp only [List.flatMap_cons, bindingChars, String.toList_append, List.append_assoc,
        List.singleton_append] at h
      have hrest := List.append_cancel_left (List.append_cancel_left (List.append_cancel_left
        (List.append_cancel_left h)))
      obtain ⟨hvalue, hmore⟩ := Value.tag_cancel has.1.1 hbs.1.1
        (Text.endsNumeral_cons rfl) (Text.endsNumeral_cons rfl) hrest
      rw [hvalue, ih hkeys has.2 hbs.2 (List.cons.inj hmore).2]

/-- Bindings of a name to values with the same tagged text. -/
def Alike (s t : Store) (a b : String × Symbol) : Prop :=
  a.1 = b.1 ∧ a.2.kind = b.2.kind ∧ s.serialize a.2.value = t.serialize b.2.value

theorem alike_insertInto {s t : Store} {as bs : List (String × Symbol)} {x : String}
    {symbol symbol' : Symbol} (h : List.Forall₂ (Alike s t) as bs)
    (hsymbol : Alike s t (x, symbol) (x, symbol')) :
    List.Forall₂ (Alike s t) (insertInto x symbol as) (insertInto x symbol' bs) := by
  induction h with
  | nil => exact .cons hsymbol .nil
  | @cons a b as bs hab hrest ih =>
    obtain ⟨y, u⟩ := a
    obtain ⟨z, w⟩ := b
    obtain ⟨rfl, -⟩ : y = z ∧ True := ⟨hab.1, trivial⟩
    simp only [insertInto]
    split
    · exact .cons hsymbol (.cons hab hrest)
    · split
      · exact .cons hsymbol hrest
      · exact .cons hab ih

/-- Scopes of the same name in which bindings are alike have the same content. -/
theorem content_of_alike {s t : Store} {a b : Scope} (hname : a.name = b.name)
    (h : List.Forall₂ (Alike s t) a.symbols b.symbols) : a.content s = b.content t := by
  unfold content
  rw [hname]
  generalize Bytes.ofString b.name ++ _ = before
  generalize a.symbols = as at h ⊢
  generalize b.symbols = bs at h ⊢
  induction h generalizing before with
  | nil => rfl
  | cons hab _ ih =>
    obtain ⟨hkey, hkind, hvalue⟩ := hab
    rw [List.foldl_cons, List.foldl_cons]
    dsimp only
    rw [hkey, hkind, hvalue]
    exact ih _

end Scope

end Kotoba
