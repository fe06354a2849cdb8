import Kotoba.Console
import Kotoba.Proofs.Text.Bytes
import Mathlib.Data.List.Forall2

/-! Who takes the lines of an input. When readers take lines one after the other, each line goes
whole to one of them, in order, and what is unread are the lines that follow. -/
namespace Kotoba

namespace Bytes

/-- The lines of a text with the line feeds that end them. The last line may lack it. -/
def wholeLines : List UInt8 → List (List UInt8)
  | [] => []
  | b :: rest =>
    if b = 0x0a then [b] :: wholeLines rest
    else match wholeLines rest with
      | [] => [[b]]
      | line :: more => (b :: line) :: more

theorem flatten_wholeLines (bs : List UInt8) : (wholeLines bs).flatten = bs := by
  induction bs with
  | nil => rfl
  | cons b rest ih =>
    rw [wholeLines]
    split
    · rw [List.flatten_cons, ih]
      rfl
    · split
      · next h =>
        rw [h] at ih
        rw [← ih]
        rfl
      · next h =>
        rw [h] at ih
        rw [← ih]
        rfl

theorem wholeLines_of_not_mem {bs : List UInt8} (hne : bs ≠ []) (h : 0x0a ∉ bs) :
    wholeLines bs = [bs] := by
  induction bs with
  | nil => exact absurd rfl hne
  | cons b rest ih =>
    rw [List.mem_cons, not_or] at h
    rw [wholeLines, if_neg (Ne.symm h.1)]
    cases rest with
    | nil => rfl
    | cons c rest => rw [ih (List.cons_ne_nil c rest) h.2]

theorem wholeLines_append {line : List UInt8} (h : 0x0a ∉ line) (rest : List UInt8) :
    wholeLines (line ++ 0x0a :: rest) = (line ++ [0x0a]) :: wholeLines rest := by
  induction line with
  | nil => rfl
  | cons b line ih =>
    rw [List.mem_cons, not_or] at h
    rw [List.cons_append, wholeLines, if_neg (Ne.symm h.1), ih h.2]
    rfl

end Bytes

namespace Console

open Bytes (wholeLines)

/-- An input that does not fail gives its lines one after the other, and nothing after the last. -/
theorem Input.takeLine_cases {i : Input} (h : i.failure = none) :
    ∃ line j, i.takeLine = (.ok line, j) ∧ j.failure = none ∧
      (line.isEmpty = false ∧
          wholeLines i.pending.toList = line.toList :: wholeLines j.pending.toList ∨
        line = .empty ∧ i.pending.toList = [] ∧ j = i) := by
  obtain ⟨pending, failure⟩ := i
  obtain rfl : failure = none := h
  obtain ⟨line, rest, hfree, hpending, hindex⟩ | ⟨hfree, hindex⟩ := pending.indexOf?_cases 0x0a
  · have htake : (pending.take (line.length + 1)).toList = line ++ [0x0a] := by
      rw [Bytes.toList_take, hpending, List.take_append, List.take_of_length_le (by omega)]
      simp
    have hdrop : (pending.drop (line.length + 1)).toList = rest := by
      simp [hpending, List.drop_append]
    refine ⟨_, _, by rw [Input.takeLine, hindex], rfl, .inl ⟨?_, ?_⟩⟩
    · exact Bytes.isEmpty_eq_false (by simp [htake])
    · rw [htake, hdrop, hpending, Bytes.wholeLines_append hfree]
  · refine ⟨pending, ⟨.empty, none⟩, by rw [Input.takeLine, hindex], rfl, ?_⟩
    by_cases hempty : pending.toList = []
    · obtain rfl := Bytes.eq_empty hempty
      exact .inr ⟨rfl, rfl, rfl⟩
    · exact .inl ⟨Bytes.isEmpty_eq_false hempty, Bytes.wholeLines_of_not_mem hempty hfree⟩

/-- What was taken and what is left make up the input. -/
theorem Input.takeLine_append {i j : Input} {line : Bytes} (h : i.takeLine = (.ok line, j)) :
    line.toList ++ j.pending.toList = i.pending.toList := by
  unfold Input.takeLine at h
  split at h
  · cases h
    simp
  · split at h
    · cases h
    · cases h
      simp [Bytes.toList]

theorem Input.takeLine_le {i j : Input} {line : Bytes} (h : i.takeLine = (.ok line, j)) :
    j.pending.size ≤ i.pending.size := by
  have hlength := congrArg List.length (Input.takeLine_append h)
  simp only [List.length_append, Bytes.length_toList] at hlength
  omega

theorem Input.takeLine_lt {i j : Input} {line : Bytes} (h : i.takeLine = (.ok line, j))
    (hline : line.isEmpty = false) : j.pending.size < i.pending.size := by
  have hlength := congrArg List.length (Input.takeLine_append h)
  have hne : line.size ≠ 0 := by simpa [ByteArray.isEmpty] using hline
  simp only [List.length_append, Bytes.length_toList] at hlength
  omega

/-- What a reader makes of a line. -/
inductive Taken where
  /-- A line that was typed for an entry, without what ends it; none if the input has ended. -/
  | typed (line : Option Bytes)
  /-- The value of an input expression. -/
  | value (text : Bytes)
deriving BEq, ReflBEq, LawfulBEq

/-- Whether something is what its reader makes of a line. -/
def Taken.IsOf : Taken → Bytes → Prop
  | typed shown, line => shown =
    if line.isEmpty then none else some (line.trimRight fun b => b == 0x0a || b == 0x0d)
  | value text, line => text = line.chomp

/-- An input at moments one after the other, and what was taken from it just before each. -/
inductive Fed : Input → List (Option Taken × Input) → Input → Prop
  | done {i : Input} : Fed i [] i
  | idle {i j : Input} {seen : List (Option Taken × Input)} (h : Fed i seen j) :
    Fed i ((none, i) :: seen) j
  | takes {i j k : Input} {line : Bytes} {taken : Taken} {seen : List (Option Taken × Input)}
    (hline : i.takeLine = (.ok line, j)) (htaken : taken.IsOf line) (h : Fed j seen k) :
    Fed i ((some taken, j) :: seen) k

namespace Fed

variable {i j k : Input} {seen more : List (Option Taken × Input)}

theorem append (h : Fed i seen j) (h' : Fed j more k) : Fed i (seen ++ more) k := by
  induction h with
  | done => exact h'
  | idle _ ih => exact .idle (ih h')
  | takes hline htaken _ ih => exact .takes hline htaken (ih h')

theorem of_append (h : Fed i (seen ++ more) k) : ∃ j, Fed i seen j ∧ Fed j more k := by
  induction seen generalizing i with
  | nil => exact ⟨i, .done, h⟩
  | cons sight seen ih =>
    cases h with
    | idle h =>
      obtain ⟨j, hseen, hmore⟩ := ih h
      exact ⟨j, .idle hseen, hmore⟩
    | takes hline htaken h =>
      obtain ⟨j, hseen, hmore⟩ := ih h
      exact ⟨j, .takes hline htaken hseen, hmore⟩

/-- The last moment shows what is left. -/
theorem last {sight : Option Taken × Input} (h : Fed i (seen ++ [sight]) j) : sight.2 = j := by
  obtain ⟨_, -, h⟩ := h.of_append
  cases h with
  | idle h => cases h; rfl
  | takes _ _ h => cases h; rfl

theorem size_le (h : Fed i seen j) : j.pending.size ≤ i.pending.size := by
  induction h with
  | done => exact Nat.le_refl _
  | idle _ ih => exact ih
  | takes hline _ _ ih => exact Nat.le_trans ih (Input.takeLine_le hline)

/-- An input does not begin to fail. -/
theorem failure_eq (h : Fed i seen j) (hi : i.failure = none) : j.failure = none := by
  induction h with
  | done => exact hi
  | idle _ ih => exact ih hi
  | takes hline _ _ ih =>
    obtain ⟨line, j, hline', hj, -⟩ := Input.takeLine_cases hi
    rw [hline] at hline'
    cases hline'
    exact ih hj

end Fed

/-- How a text was shared out: each of the first lines went whole, once and in order to one
reader, and the other lines are unread. Only when there was none left a reader got nothing. -/
def Shared (text : Bytes) (taken : List Taken) (unread : Bytes) : Prop :=
  ∃ lines ended, lines ≤ (wholeLines text.toList).length ∧
    unread.toList = ((wholeLines text.toList).drop lines).flatten ∧
    (0 < ended → lines = (wholeLines text.toList).length) ∧
    List.Forall₂ Taken.IsOf taken
      (((wholeLines text.toList).take lines).map Bytes.ofList ++ List.replicate ended .empty)

namespace Shared

variable {text rest unread line : Bytes} {t : Taken} {taken : List Taken}

/-- The first line goes to the first reader. -/
theorem cons (hfirst : wholeLines text.toList = line.toList :: wholeLines rest.toList)
    (ht : t.IsOf line) (h : Shared rest taken unread) : Shared text (t :: taken) unread := by
  obtain ⟨lines, ended, hlines, hunread, hended, htaken⟩ := h
  refine ⟨lines + 1, ended, ?_, ?_, ?_, ?_⟩
  · rw [hfirst, List.length_cons]
    omega
  · rw [hunread, hfirst, List.drop_succ_cons]
  · rw [hfirst, List.length_cons]
    intro h
    rw [hended h]
  · rw [hfirst, List.take_succ_cons, List.map_cons, Bytes.ofList_toList]
    exact .cons ht htaken

/-- A reader gets nothing when nothing is left. -/
theorem ended (htext : text.toList = []) (ht : t.IsOf .empty) (h : Shared text taken unread) :
    Shared text (t :: taken) unread := by
  obtain ⟨lines, ended, -, hunread, -, htaken⟩ := h
  rw [htext] at hunread htaken
  refine ⟨0, ended + 1, Nat.zero_le _, ?_, ?_, ?_⟩
  · simpa [htext, wholeLines] using hunread
  · simp [htext, wholeLines]
  · rw [htext]
    exact .cons ht (by simpa [wholeLines] using htaken)

end Shared

/-- What readers take one after the other are the lines of the input. -/
theorem Fed.shared {i j : Input} {seen : List (Option Taken × Input)} (h : Fed i seen j)
    (hi : i.failure = none) : Shared i.pending (seen.filterMap (·.1)) j.pending := by
  induction h with
  | done => exact ⟨0, 0, Nat.zero_le _, (Bytes.flatten_wholeLines _).symm, by simp, by simp⟩
  | idle _ ih => exact ih hi
  | takes hline htaken _ ih =>
    obtain ⟨line, j, hline', hj, hcases⟩ := Input.takeLine_cases hi
    rw [hline] at hline'
    cases hline'
    obtain ⟨-, hfirst⟩ | ⟨rfl, hempty, rfl⟩ := hcases
    · exact .cons hfirst htaken (ih hj)
    · exact .ended hempty htaken (ih hj)

end Console

end Kotoba
