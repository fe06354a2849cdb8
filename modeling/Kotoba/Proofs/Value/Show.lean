import Kotoba.Proofs.Value.Written

/-! What the text of a value depends on: the arrays and the files that can be reached from it. -/
namespace Kotoba.Store

/-- Whether a value has the same elements, or is a file that looks the same, in two stores. -/
def SameAt (s t : Store) : Value → Prop
  | .array index => t.elements index = s.elements index
  | .file index => t.files[index]?.map File.Handle.text = s.files[index]?.map File.Handle.text
  | _ => True

private theorem briefly_eq {s t : Store} {v : Value} (h : s.SameAt t v) :
    t.briefly v = s.briefly v := by
  cases v with
  | file index =>
    have hfile : t.files[index]?.map File.Handle.text = s.files[index]?.map File.Handle.text := h
    simp only [briefly, hfile]
  | _ => rfl

/-- A value is written out in the same way in two stores if everything that can be reached from it
is the same. -/
private theorem Written.congr {s t : Store} {enclosing : List Nat} {v : Value} {text : Bytes}
    (h : Written s s.printing enclosing v text) (hv : ∀ w, s.Reaches v w → s.SameAt t w) :
    Written t t.printing enclosing v text := by
  induction h with
  | @plain enclosing v hplain =>
    have hsame : s.printing.plain (!enclosing.isEmpty) v = t.printing.plain (!enclosing.isEmpty) v := by
      have hbriefly := briefly_eq (hv v .self)
      simp only [printing]
      split
      · rfl
      · exact hbriefly.symm
    rw [hsame]
    exact .plain hplain
  | mark hplace => exact .mark hplace
  | @full enclosing index texts hnew _ ih =>
    have hsame : t.elements index = s.elements index := hv _ .self
    rw [← hsame]
    apply Written.full hnew
    intro w hw
    rw [hsame] at hw
    exact ih w hw fun u hu => hv u (hu.of_element hw)

/-- The text of a value is the same in two stores if everything that can be reached from it is. -/
theorem format_eq {s t : Store} {v : Value} (hv : ∀ w, s.Reaches v w → s.SameAt t w) :
    t.format v = s.format v :=
  (format_written t v).unique List.nodup_nil ((format_written s v).congr hv)

end Kotoba.Store
