import Kotoba.File.Disk
import Kotoba.Proofs.Text.Bytes
import Mathlib.Tactic.SplitIfs

/-! What a disk holds at a location after it was written to. -/
namespace Kotoba

namespace Disk

/-- Whether an entry takes what is written to it without keeping it, or takes nothing. -/
def Entry.isDevice : Entry → Bool
  | file _ | directory => false
  | sink | full => true

/-- What the file at a location holds; what is no file holds nothing. -/
def content (d : Disk) (location : Location) : Bytes :=
  match d.get? location with
  | some (.file content) => content
  | _ => .empty

variable {d d' : Disk} {location : Location} {entry : Entry} {held data : Bytes}

theorem lookup_putEntry (location : Location) (entry : Entry)
    (entries : List (Location × Entry)) :
    (putEntry location entry entries).lookup location = some entry := by
  induction entries with
  | nil => exact List.lookup_cons_self
  | cons e rest ih =>
    obtain ⟨l, e⟩ := e
    show (if l = location then (location, entry) :: rest
      else (l, e) :: putEntry location entry rest).lookup location = some entry
    by_cases hl : l = location
    · rw [if_pos hl]
      exact List.lookup_cons_self
    · have hne : (location == l) = false := beq_eq_false_iff_ne.mpr (Ne.symm hl)
      rw [if_neg hl, List.lookup_cons, hne]
      exact ih

/-- What was put at a location stands there. -/
theorem get?_put (hroot : location ≠ []) : (d.put location entry).get? location = some entry := by
  have hroot : location.isEmpty = false := by simpa using hroot
  rw [get?, hroot, if_neg Bool.false_ne_true]
  exact lookup_putEntry location entry d.entries

/-- At the root there is no file. -/
theorem ne_root_of_file (h : d.get? location = some (.file held)) : location ≠ [] := by
  rintro rfl
  simp [get?] at h

theorem size_of_file (h : d.get? location = some (.file held)) : d.size location = held.size := by
  rw [size, h]

/-- What is read of a file are the bytes from the offset on, as many of them as there are. -/
theorem read_of_file (h : d.get? location = some (.file held)) (offset count : Nat) :
    d.read location offset count = .ok ((held.drop offset).take count) := by
  rw [read, h, ← Bytes.extract_add]

/-- What is written at the end of a content comes after it. -/
theorem overwrite_size (held data : Bytes) : overwrite held held.size data = held ++ data := by
  have hgap : Bytes.replicate (held.size - held.size) (Bytes.ofList [0]) = .empty := by
    rw [Nat.sub_self]
    rfl
  have hbeyond : held.drop (held.size + data.size) = .empty :=
    Bytes.drop_of_size_le (Nat.le_add_right _ _)
  rw [overwrite, hgap, hbeyond, Bytes.take_size, ByteArray.append_empty, ByteArray.append_empty]

/-- A file that is written at its end grows by what is written. -/
theorem write_size (h : d.get? location = some (.file held)) (data : Bytes) :
    ∃ d', d.write location held.size data = .ok d' ∧
      d'.get? location = some (.file (held ++ data)) := by
  refine ⟨_, by rw [write, h], ?_⟩
  rw [get?_put (ne_root_of_file h), overwrite_size]

theorem bind_eq_ok {α β : Type} {x : Except Refusal α} {f : α → Except Refusal β} {b : β}
    (h : x >>= f = .ok b) : ∃ a, x = .ok a ∧ f a = .ok b := by
  cases x with
  | error refusal => cases h
  | ok a => exact ⟨a, rfl, h⟩

/-- A file to write stands in a directory and is no directory itself. -/
theorem target_ok {path : Bytes} (h : d.target path = .ok location) :
    location ≠ [] ∧ d.get? location ≠ some .directory := by
  unfold target at h
  obtain ⟨route, -, h⟩ := bind_eq_ok h
  cases hlast : route.names.getLast? with
  | none =>
    rw [hlast] at h
    cases h
  | some name =>
    rw [hlast] at h
    obtain ⟨parent, -, h⟩ := bind_eq_ok h
    split_ifs at h
    split at h
    · cases h
    · next hplain =>
      cases h
      exact ⟨by simp, hplain⟩

/-- Unless it is a device, what is opened for writing is an empty file. -/
theorem get?_truncate (hroot : location ≠ [])
    (hfile : ∀ entry, d.get? location = some entry → entry.isDevice = false) :
    (d.truncate location).get? location = some (.file .empty) := by
  rw [truncate]
  split
  · next hsink => cases hfile _ hsink
  · next hfull => cases hfile _ hfull
  · exact get?_put hroot

/-- Unless it is a device, what is opened for appending is a file with the content it had. -/
theorem get?_ensure (hroot : location ≠ []) (hplain : d.get? location ≠ some .directory)
    (hfile : ∀ entry, d.get? location = some entry → entry.isDevice = false) :
    (d.ensure location).get? location = some (.file (d.content location)) := by
  rw [ensure, content]
  cases hget : d.get? location with
  | none => exact get?_put hroot
  | some entry =>
    rw [Option.isSome_some, if_pos rfl, hget]
    cases entry with
    | file held => rfl
    | directory => exact absurd hget hplain
    | sink | full => cases hfile _ hget

end Disk

end Kotoba
