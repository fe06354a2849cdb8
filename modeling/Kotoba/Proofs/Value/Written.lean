import Kotoba.Value.Text
import Mathlib.Data.List.Nodup
import Mathlib.Data.List.Perm.Subperm

/-! Values written out. Arrays may contain each other and themselves, so to write them out plainly
need not come to an end. What is written instead is a mark for an array that is met inside itself;
every other array is written out in full, however often it is met. -/
namespace Kotoba

namespace Value

def isArray : Value → Bool
  | array _ => true
  | _ => false

/-- A way to write values: the text of what is no array, at the top or inside an array; the mark
for an enclosing array, by its place counted from the outermost; and what stands before, between
and after elements. -/
structure Style where
  plain : (inside : Bool) → Value → Bytes
  mark : (place : Nat) → Bytes
  opening : Bytes
  separator : Bytes
  closing : Bytes

/-- The text of an array with elements of given texts. -/
def Style.full (style : Style) (parts : List Bytes) : Bytes :=
  style.opening ++ Bytes.join style.separator parts ++ style.closing

end Value

namespace Store

open Value (Style)

/-- Values as they are printed: a string inside an array is quoted. -/
def printing (s : Store) : Style where
  plain inside v :=
    match inside, v with
    | true, .string text => Text.quote text
    | _, v => s.briefly v
  mark _ := "[...]"
  opening := "["
  separator := ", "
  closing := "]"

/-- Values tagged by kind. -/
def tagging (s : Store) : Style where
  plain _ v := s.briefTag v
  mark place := Bytes.ofString s!"cycle:{place}"
  opening := "array:["
  separator := ","
  closing := "]"

/-- A value written out inside the arrays `enclosing`, outermost first. An array is marked if it is
one of them, and written out in full if it is not. -/
inductive Written (s : Store) (style : Style) : (enclosing : List Nat) → Value → Bytes → Prop
  | plain {enclosing : List Nat} {v : Value} (h : v.isArray = false) :
    Written s style enclosing v (style.plain (!enclosing.isEmpty) v)
  | mark {enclosing : List Nat} {index place : Nat} (h : enclosing[place]? = some index) :
    Written s style enclosing (.array index) (style.mark place)
  | full {enclosing : List Nat} {index : Nat} {texts : Value → Bytes} (hnew : index ∉ enclosing)
    (helements : ∀ v ∈ s.elements index, Written s style (enclosing ++ [index]) v (texts v)) :
    Written s style enclosing (.array index) (style.full ((s.elements index).toList.map texts))

/-- A value written out plainly, without regard to what encloses it. -/
inductive Plainly (s : Store) (style : Style) : (inside : Bool) → Value → Bytes → Prop
  | plain {inside : Bool} {v : Value} (h : v.isArray = false) :
    Plainly s style inside v (style.plain inside v)
  | full {inside : Bool} {index : Nat} {texts : Value → Bytes}
    (helements : ∀ v ∈ s.elements index, Plainly s style true v (texts v)) :
    Plainly s style inside (.array index) (style.full ((s.elements index).toList.map texts))

/-- The values that can be reached from a value through elements of arrays. -/
inductive Reaches (s : Store) (v : Value) : Value → Prop
  | self : Reaches s v v
  | element {index : Nat} {w : Value} (h : Reaches s v (.array index))
    (hw : w ∈ s.elements index) : Reaches s v w

/-- No array that can be reached from a value can be reached from an element of its own. -/
def Acyclic (s : Store) (v : Value) : Prop :=
  ∀ index, s.Reaches v (.array index) → ∀ w ∈ s.elements index, ¬ s.Reaches w (.array index)

theorem Reaches.of_element {s : Store} {index : Nat} {v w : Value} (hv : v ∈ s.elements index)
    (h : s.Reaches v w) : s.Reaches (.array index) w := by
  induction h with
  | self => exact .element .self hv
  | element _ hw ih => exact .element ih hw

/-- What is reached from an array is the array itself, or is reached from an element. -/
theorem Reaches.cases_array {s : Store} {index : Nat} {w : Value} (h : s.Reaches (.array index) w) :
    w = .array index ∨ ∃ v ∈ s.elements index, s.Reaches v w := by
  induction h with
  | self => exact .inl rfl
  | @element i w h hw ih =>
    right
    rcases ih with heq | ⟨v, hv, hreach⟩
    · cases heq
      exact ⟨w, hw, .self⟩
    · exact ⟨v, hv, .element hreach hw⟩

/-- From what is no array nothing else is reached. -/
theorem Reaches.eq_of_plain {s : Store} {v w : Value} (hv : v.isArray = false)
    (h : s.Reaches v w) : w = v := by
  induction h with
  | self => rfl
  | element _ _ ih =>
    rw [← ih] at hv
    cases hv

theorem elements_of_le {s : Store} {index : Nat} (h : s.arrays.size ≤ index) :
    s.elements index = #[] := by
  rw [elements, Array.getElem?_eq_none h]
  rfl

/-- Arrays of a store each of which is inside those before it, without repetition. -/
structure Nest (s : Store) (enclosing : List Nat) : Prop where
  nodup : enclosing.Nodup
  lt : ∀ i ∈ enclosing, i < s.arrays.size

namespace Nest

variable {s : Store} {enclosing : List Nat} {index : Nat}

theorem nil (s : Store) : Nest s [] := ⟨List.nodup_nil, by simp⟩

/-- There are at most as many of them as the store has arrays. -/
theorem length_le (h : Nest s enclosing) : enclosing.length ≤ s.arrays.size := by
  have hsubset : enclosing ⊆ List.range s.arrays.size := fun i hi => List.mem_range.mpr (h.lt i hi)
  simpa using (List.subperm_of_subset h.nodup hsubset).length_le

/-- An array that has elements is one of the store. -/
theorem snoc (h : Nest s enclosing) (hnew : index ∉ enclosing) {v : Value}
    (hv : v ∈ s.elements index) : Nest s (enclosing ++ [index]) := by
  have hlt : index < s.arrays.size := by
    by_contra hle
    rw [elements_of_le (by omega)] at hv
    exact absurd hv (Array.not_mem_empty v)
  constructor
  · exact h.nodup.append (List.nodup_singleton index) (by simpa using hnew)
  · simpa [or_imp, forall_and] using ⟨h.lt, hlt⟩

end Nest

theorem nodup_snoc {enclosing : List Nat} {index : Nat} (h : enclosing.Nodup)
    (hnew : index ∉ enclosing) : (enclosing ++ [index]).Nodup :=
  h.append (List.nodup_singleton index) (by simpa using hnew)

section Written

variable {s : Store} {style : Style} {enclosing : List Nat} {v : Value} {text text' : Bytes}

private theorem map_texts {index : Nat} {texts texts' : Value → Bytes}
    (h : ∀ v ∈ s.elements index, texts v = texts' v) :
    (s.elements index).toList.map texts = (s.elements index).toList.map texts' :=
  List.map_congr_left fun v hv => h v (Array.mem_toList_iff.mp hv)

/-- There is one way to write a value out. -/
theorem Written.unique (hnodup : enclosing.Nodup) (h : Written s style enclosing v text)
    (h' : Written s style enclosing v text') : text = text' := by
  induction h generalizing text' with
  | plain hv =>
    cases h' with
    | plain => rfl
    | mark | full => cases hv
  | @mark enclosing index place hplace =>
    cases h' with
    | plain hv => cases hv
    | @mark _ _ place' hplace' =>
      have hlt : place < enclosing.length := (List.getElem?_eq_some_iff.mp hplace).1
      rw [(List.getElem?_inj hlt hnodup).mp (hplace.trans hplace'.symm)]
    | full hnew => exact absurd (List.mem_of_getElem? hplace) hnew
  | @full enclosing index texts hnew _ ih =>
    cases h' with
    | plain hv => cases hv
    | mark hplace => exact absurd (List.mem_of_getElem? hplace) hnew
    | @full _ _ texts' _ helements' =>
      have hsame : ∀ v ∈ s.elements index, texts v = texts' v := fun v hv =>
        ih v hv (nodup_snoc hnodup hnew) (helements' v hv)
      rw [map_texts hsame]

theorem Plainly.unique {inside : Bool} (h : Plainly s style inside v text)
    (h' : Plainly s style inside v text') : text = text' := by
  induction h generalizing text' with
  | plain hv =>
    cases h' with
    | plain => rfl
    | full => cases hv
  | @full inside index texts _ ih =>
    cases h' with
    | plain hv => cases hv
    | @full _ _ texts' helements' =>
      have hsame : ∀ v ∈ s.elements index, texts v = texts' v := fun v hv =>
        ih v hv (helements' v hv)
      rw [map_texts hsame]

/-- To write a value out plainly comes to an end only if no array is inside itself. -/
theorem Plainly.acyclic {inside : Bool} (h : Plainly s style inside v text) : s.Acyclic v := by
  induction h with
  | plain hv =>
    intro index hreach
    rw [← hreach.eq_of_plain hv] at hv
    cases hv
  | @full inside index texts _ ih =>
    intro j hreach w hw hback
    rcases hreach.cases_array with heq | ⟨u, hu, hreach⟩
    · cases heq
      exact ih w hw index hback w hw hback
    · exact ih u hu j hreach w hw hback

/-- Where no array is inside itself nothing is marked. -/
theorem Written.plainly (h : Written s style enclosing v text) (hacyclic : s.Acyclic v)
    (houtside : ∀ i ∈ enclosing, ¬ s.Reaches v (.array i)) :
    Plainly s style (!enclosing.isEmpty) v text := by
  induction h with
  | plain hv => exact .plain hv
  | mark hplace => exact absurd .self (houtside _ (List.mem_of_getElem? hplace))
  | @full enclosing index texts hnew _ ih =>
    refine .full fun w hw => ?_
    have hinner : (!(enclosing ++ [index]).isEmpty) = true := by simp
    rw [← hinner]
    apply ih w hw
    · exact fun j hreach => hacyclic j (hreach.of_element hw)
    · intro i hi hreach
      rcases List.mem_append.mp hi with hi | hi
      · exact houtside i hi (hreach.of_element hw)
      · rw [List.mem_singleton.mp hi] at hreach
        exact hacyclic index .self w hw hreach

end Written

section Printing

variable {s : Store}

/-- What is done with the elements of a list one after the other, if each leaves the state as it
was. -/
private theorem run_mapM {f : Value → StateM (List Nat) Bytes} {opened : List Nat} {vs : List Value}
    (h : ∀ v ∈ vs, ((f v).run opened).2 = opened) :
    (vs.mapM f).run opened = (vs.map fun v => ((f v).run opened).1, opened) := by
  induction vs with
  | nil => rfl
  | cons v vs ih =>
    have hv := h v List.mem_cons_self
    have hvs := ih fun w hw => h w (List.mem_cons_of_mem v hw)
    have hrun : (f v).run opened = pure (((f v).run opened).1, opened) := Prod.ext rfl hv
    rw [List.mapM_cons, StateT.run_bind, hrun, pure_bind, StateT.run_bind, hvs]
    rfl

/-- The text of an element. -/
def elementWithin (s : Store) (depth : Nat) : Value → StateM (List Nat) Bytes
  | .string text => pure (Text.quote text)
  | v => s.formatWithin depth v

private theorem formatWithin_open {depth index : Nat} {opened : List Nat} (h : index ∈ opened) :
    (s.formatWithin (depth + 1) (.array index)).run opened = (Bytes.ofString "[...]", opened) := by
  have hopen : opened.contains index = true := List.contains_iff_mem.mpr h
  rw [formatWithin, StateT.run_bind, StateT.run_get, pure_bind, if_pos hopen]
  rfl

private theorem formatWithin_new {depth index : Nat} {opened : List Nat} (h : index ∉ opened) :
    (s.formatWithin (depth + 1) (.array index)).run opened =
      let result := ((s.elements index).toList.mapM (s.elementWithin depth)).run (index :: opened)
      (s.printing.full result.1, result.2.erase index) := by
  have hnew : ¬ opened.contains index = true := by rwa [List.contains_iff_mem]
  rw [formatWithin, StateT.run_bind, StateT.run_get, pure_bind, if_neg hnew]
  rfl

private theorem formatWithin_plain {v : Value} (h : v.isArray = false) (depth : Nat)
    (opened : List Nat) : (s.formatWithin depth v).run opened = (s.briefly v, opened) := by
  cases v with
  | array => cases h
  | _ => cases depth <;> rfl

private theorem printing_plain {inside : Bool} {v : Value}
    (h : inside = false ∨ ∀ text, v ≠ .string text) : s.printing.plain inside v = s.briefly v := by
  rcases h with rfl | hv
  · rfl
  · cases v with
    | string text => exact absurd rfl (hv text)
    | _ => cases inside <;> rfl

/-- As many levels of arrays are enough as there are arrays that do not enclose the value. When it
has been written out the same arrays are kept track of as before. -/
private theorem formatWithin_written {depth : Nat} {enclosing opened : List Nat} {v : Value}
    (hs : Nest s enclosing) (hopened : ∀ i, i ∈ opened ↔ i ∈ enclosing)
    (hdepth : s.arrays.size < depth + enclosing.length)
    (hv : enclosing = [] ∨ ∀ text, v ≠ .string text) :
    Written s s.printing enclosing v ((s.formatWithin depth v).run opened).1 ∧
      ((s.formatWithin depth v).run opened).2 = opened := by
  induction depth generalizing enclosing opened v with
  | zero =>
    have hlength := hs.length_le
    omega
  | succ depth ih =>
    cases hplain : v.isArray with
    | false =>
      have hinside : (!enclosing.isEmpty) = false ∨ ∀ text, v ≠ .string text := by
        rcases hv with rfl | hv
        · exact .inl rfl
        · exact .inr hv
      rw [formatWithin_plain hplain, ← printing_plain hinside]
      exact ⟨.plain hplain, rfl⟩
    | true =>
      cases v with
      | array index =>
        by_cases hindex : index ∈ opened
        · rw [formatWithin_open hindex]
          obtain ⟨place, hplace⟩ := List.getElem?_of_mem ((hopened index).mp hindex)
          exact ⟨.mark hplace, rfl⟩
        · have hnew : index ∉ enclosing := fun h => hindex ((hopened index).mpr h)
          have helements : ∀ w ∈ s.elements index,
              Written s s.printing (enclosing ++ [index]) w
                  ((s.elementWithin depth w).run (index :: opened)).1 ∧
                ((s.elementWithin depth w).run (index :: opened)).2 = index :: opened := by
            intro w hw
            have hinner : (∀ text, w ≠ .string text) →
                Written s s.printing (enclosing ++ [index]) w
                    ((s.formatWithin depth w).run (index :: opened)).1 ∧
                  ((s.formatWithin depth w).run (index :: opened)).2 = index :: opened := by
              intro hw'
              apply ih (hs.snoc hnew hw)
              · intro i
                rw [List.mem_cons, List.mem_append, List.mem_singleton, hopened i, or_comm]
              · rw [List.length_append, List.length_singleton]
                omega
              · exact .inr hw'
            cases w with
            | string text =>
              have hinside : (!(enclosing ++ [index]).isEmpty) = true := by simp
              have hwritten : Written s s.printing (enclosing ++ [index]) (.string text)
                  (s.printing.plain (!(enclosing ++ [index]).isEmpty) (.string text)) := .plain rfl
              rw [hinside] at hwritten
              exact ⟨hwritten, rfl⟩
            | _ => exact hinner fun text => by simp
          have hsame : ∀ w ∈ (s.elements index).toList,
              ((s.elementWithin depth w).run (index :: opened)).2 = index :: opened := fun w hw =>
            (helements w (Array.mem_toList_iff.mp hw)).2
          rw [formatWithin_new hindex, run_mapM hsame]
          exact ⟨.full hnew fun w hw => (helements w hw).1, List.erase_cons_head index opened⟩
      | _ => cases hplain

theorem format_written (s : Store) (v : Value) : Written s s.printing [] v (s.format v) :=
  (formatWithin_written (.nil s) (fun _ => Iff.rfl) (Nat.lt_succ_self _) (.inl rfl)).1

/-- As many levels of arrays are enough as there are arrays that do not enclose the value. -/
private theorem serializeWithin_written {depth : Nat} {enclosing : List Nat} {v : Value}
    (hs : Nest s enclosing) (hdepth : s.arrays.size < depth + enclosing.length) :
    Written s s.tagging enclosing v (s.serializeWithin depth enclosing v) := by
  induction depth generalizing enclosing v with
  | zero =>
    have hlength := hs.length_le
    omega
  | succ depth ih =>
    cases v with
    | array index =>
      rw [serializeWithin]
      cases hplace : enclosing.idxOf? index with
      | some place =>
        obtain ⟨hlt, hindex, -⟩ := List.idxOf?_eq_some_iff.mp hplace
        exact .mark (by rw [List.getElem?_eq_getElem hlt, hindex])
      | none =>
        have hnew : index ∉ enclosing := List.idxOf?_eq_none_iff.mp hplace
        refine .full hnew fun w hw => ?_
        apply ih (hs.snoc hnew hw)
        rw [List.length_append, List.length_singleton]
        omega
    | _ => exact .plain rfl

theorem serialize_written (s : Store) (v : Value) : Written s s.tagging [] v (s.serialize v) :=
  serializeWithin_written (.nil s) (Nat.lt_succ_self _)

end Printing

/-- Each value has one text, whatever arrays contain each other: it is written out with a mark for
an array where it is inside itself, and only there. To write the value out plainly comes to an end
if and only if no array is inside itself, and then that is its text. -/
theorem texts_written (s : Store) (v : Value) (text : Bytes) :
    (Written s s.printing [] v text ↔ s.format v = text) ∧
    (Written s s.tagging [] v text ↔ s.serialize v = text) ∧
    (Plainly s s.printing false v text ↔ s.Acyclic v ∧ s.format v = text) ∧
    (Plainly s s.tagging false v text ↔ s.Acyclic v ∧ s.serialize v = text) := by
  have hwritten : ∀ {style : Style} {text₀ : Bytes}, Written s style [] v text₀ →
      (Written s style [] v text ↔ text₀ = text) := by
    intro style text₀ h₀
    constructor
    · exact fun h => h₀.unique List.nodup_nil h
    · rintro rfl
      exact h₀
  have hplainly : ∀ {style : Style} {text₀ : Bytes}, Written s style [] v text₀ →
      (Plainly s style false v text ↔ s.Acyclic v ∧ text₀ = text) := by
    intro style text₀ h₀
    have hplain : s.Acyclic v → Plainly s style false v text₀ := fun hacyclic =>
      h₀.plainly hacyclic fun i hi => absurd hi List.not_mem_nil
    constructor
    · exact fun h => ⟨h.acyclic, (hplain h.acyclic).unique h⟩
    · rintro ⟨hacyclic, rfl⟩
      exact hplain hacyclic
  exact ⟨hwritten (format_written s v), hwritten (serialize_written s v),
    hplainly (format_written s v), hplainly (serialize_written s v)⟩

/-- An array met twice side by side is written out twice, and itself inside itself is marked. -/
example :
    let s : Store := { arrays := #[#[.array 1, .array 1, .array 0], #[.string "a", .array 0]] }
    s.format (.array 0) = Bytes.ofString "[[\"a\", [...]], [\"a\", [...]], [...]]" ∧
    s.serialize (.array 1) = Bytes.ofString "array:[string:\"a\",array:[cycle:0,cycle:0,cycle:1]]" := by
  decide +kernel

end Store

end Kotoba
