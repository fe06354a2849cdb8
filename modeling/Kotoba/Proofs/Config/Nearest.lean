import Kotoba.Config.Search
import Kotoba.Proofs.File.Path

/-! The nearest configuration. The search goes up from a directory to the root and ends at the first
directory that has a configuration; a directory of that name is none. -/
namespace Kotoba

open Disk (Location)

namespace Config

/-- The path under which the configuration of a directory is looked for. -/
def pathIn (directory : Location) : Bytes := Location.path (directory ++ [fileName])

theorem isName_fileName : Disk.IsName fileName :=
  ⟨by decide, by decide, by decide⟩

/-- Whether a directory has a configuration: something under its name that is no directory. -/
def HasConfig (disk : Disk) (directory : Location) : Prop :=
  ∃ entry, disk.get? (directory ++ [fileName]) = some entry ∧ entry.isDirectory = false

/-- The directory with a configuration that is nearest to `start`, from there up to the root. -/
structure Nearest (disk : Disk) (start directory : Location) : Prop where
  above : directory <+: start
  has : HasConfig disk directory
  first : ∀ other, other <+: start → HasConfig disk other → other <+: directory

theorem Nearest.unique {disk : Disk} {start d d' : Location} (h : Nearest disk start d)
    (h' : Nearest disk start d') : d = d' :=
  (h'.first d h.above h.has).eq_of_length_le (h.first d' h'.above h'.has).length_le

/-- Whether nothing but a missing entry stands in the way of a look-up. -/
def Unhindered (disk : Disk) (path : Bytes) : Prop :=
  ∀ refusal, disk.find path = .error refusal → refusal = .missing

section Search

variable {disk : Disk} (hdisk : disk.IsTree) {start : Location}
include hdisk

/-- A look into one directory tells whether it has a configuration. -/
theorem within?_cases (hclean : start.Clean) (hfree : Unhindered disk (pathIn start)) :
    HasConfig disk start ∧ within? disk start = .ok (some (pathIn start)) ∨
      ¬ HasConfig disk start ∧ within? disk start = .ok none := by
  have hname : Location.Clean (start ++ [fileName]) := by
    intro name hname
    rw [List.mem_append, List.mem_singleton] at hname
    obtain hname | rfl := hname
    · exact hclean name hname
    · exact isName_fileName
  have hfind := Disk.find_path hdisk hname hfree
  rw [within?, HasConfig, hfind]
  cases disk.get? (start ++ [fileName]) with
  | none => exact .inr ⟨fun ⟨_, h, _⟩ => (nomatch h), rfl⟩
  | some entry =>
    cases hentry : entry.isDirectory with
    | false => exact .inl ⟨⟨entry, rfl, hentry⟩, by simp [hentry, pathIn]⟩
    | true =>
      refine .inr ⟨fun ⟨e, he, h⟩ => ?_, by simp [hentry]⟩
      cases he
      rw [hentry] at h
      cases h

omit hdisk

/-- The search ends where there is a configuration. -/
theorem searchIn_of_some {found : Bytes} (h : within? disk start = .ok (some found))
    (origin : Bytes) : searchIn disk origin start = .ok found := by
  rw [searchIn, h]
  rfl

/-- At the root it ends, for the root lies in itself. -/
theorem searchIn_root (h : within? disk [] = .ok none) (origin : Bytes) :
    searchIn disk origin [] = .error (.notFound origin) := by
  rw [searchIn, h]
  rfl

/-- Below the root it goes on in the directory above. -/
theorem searchIn_append {parent : Location} {name : Bytes}
    (h : within? disk (parent ++ [name]) = .ok none) (origin : Bytes) :
    searchIn disk origin (parent ++ [name]) = searchIn disk origin parent := by
  have hup : (parent == parent ++ [name]) = false := by simp
  rw [searchIn, h]
  simp only [List.dropLast_concat, hup]
  rfl

include hdisk

/-- The search finds the nearest configuration, or there is none up to the root. -/
theorem searchIn_ancestors (hclean : start.Clean)
    (hfree : ∀ directory, directory <+: start → Unhindered disk (pathIn directory))
    (origin : Bytes) :
    (∃ directory, Nearest disk start directory ∧
        searchIn disk origin start = .ok (pathIn directory)) ∨
      (∀ directory, directory <+: start → ¬ HasConfig disk directory) ∧
        searchIn disk origin start = .error (.notFound origin) := by
  induction start using List.reverseRecOn with
  | nil =>
    obtain ⟨hhas, hsome⟩ | ⟨hnone, hlook⟩ := within?_cases hdisk hclean (hfree [] List.prefix_rfl)
    · exact .inl ⟨[], ⟨List.prefix_rfl, hhas, fun _ h _ => h⟩, searchIn_of_some hsome origin⟩
    · refine .inr ⟨fun directory h => ?_, searchIn_root hlook origin⟩
      rwa [List.prefix_nil.mp h]
  | append_singleton parent name ih =>
    obtain ⟨hhas, hsome⟩ | ⟨hnone, hlook⟩ := within?_cases hdisk hclean (hfree _ List.prefix_rfl)
    · exact .inl ⟨_, ⟨List.prefix_rfl, hhas, fun _ h _ => h⟩, searchIn_of_some hsome origin⟩
    · rw [searchIn_append hlook]
      have hup : parent <+: parent ++ [name] := List.prefix_append _ _
      have hbelow : ∀ directory, directory <+: parent ++ [name] → HasConfig disk directory →
          directory <+: parent := by
        intro directory h hhas
        obtain rfl | h := List.prefix_concat_iff.mp h
        · exact absurd hhas hnone
        · exact h
      obtain ⟨directory, hnearest, hfound⟩ | ⟨hfree', hmissing⟩ :=
        ih (fun n hn => hclean n (List.mem_append_left _ hn))
          fun directory h => hfree directory (h.trans hup)
      · refine .inl ⟨directory, ⟨hnearest.above.trans hup, hnearest.has, fun other h hhas => ?_⟩,
          hfound⟩
        exact hnearest.first other (hbelow other h hhas) hhas
      · exact .inr ⟨fun directory h hhas => hfree' directory (hbelow directory h hhas) hhas,
          hmissing⟩

/-- The search for a file starts in the directory the file lies in, and any other search where it is
asked to. -/
theorem startOf_eq {path : Bytes} (hfree : Unhindered disk (disk.absolute path).path) :
    ((∃ entry, disk.get? (disk.absolute path) = some entry ∧ entry.isDirectory = false) →
      startOf disk path = (disk.absolute path).dropLast) ∧
    ((¬ ∃ entry, disk.get? (disk.absolute path) = some entry ∧ entry.isDirectory = false) →
      startOf disk path = disk.absolute path) := by
  rw [startOf, Disk.find_path hdisk (Disk.clean_absolute hdisk path) hfree]
  cases disk.get? (disk.absolute path) with
  | none => exact ⟨fun ⟨_, h, _⟩ => (nomatch h), fun _ => rfl⟩
  | some entry =>
    cases hentry : entry.isDirectory with
    | false =>
      exact ⟨fun _ => by simp [hentry], fun h => absurd ⟨entry, rfl, hentry⟩ h⟩
    | true =>
      refine ⟨fun ⟨e, he, h⟩ => ?_, fun _ => by simp [hentry]⟩
      cases he
      rw [hentry] at h
      cases h

theorem clean_startOf (path : Bytes) : Location.Clean (startOf disk path) := by
  have hclean := Disk.clean_absolute hdisk path
  have hup : Location.Clean (disk.absolute path).dropLast :=
    fun n hn => hclean n (List.dropLast_subset _ hn)
  unfold startOf
  dsimp only
  split
  · split
    · exact hclean
    · exact hup
  · exact hclean

end Search

/-- A configuration that was read tells where it was read from. -/
theorem path_of_load {disk : Disk} {path : Bytes} {c : Config} (h : load disk path = .ok c) :
    c.path ≠ .empty := by
  unfold load at h
  split_ifs at h
  dsimp only at h
  split at h
  · cases h
  split at h
  · cases h
  split at h
  · cases h
  unfold validate at h
  split_ifs at h
  cases h
  exact Disk.path_ne_empty _

/-- The search for a configuration, on a tree where it is hindered by nothing but missing entries. It
starts in the directory a file lies in, or else where it is asked to. What is found is the nearest
configuration from there up to the root, and nothing is found if and only if there is none. What
governs is the configuration that was found, and the usual one just where there is none. -/
theorem find_nearest {disk : Disk} (hdisk : disk.IsTree) (path : Bytes)
    (hfree : Unhindered disk (disk.absolute path).path)
    (hup : ∀ directory, directory <+: startOf disk path → Unhindered disk (pathIn directory)) :
    let location := disk.absolute path
    let start := startOf disk path
    ((∃ entry, disk.get? location = some entry ∧ entry.isDirectory = false) →
      start = location.dropLast) ∧
    ((¬ ∃ entry, disk.get? location = some entry ∧ entry.isDirectory = false) →
      start = location) ∧
    (∀ found, find disk path = .ok found ↔
      ∃ directory, Nearest disk start directory ∧ found = pathIn directory) ∧
    (∀ e, find disk path = .error e ↔ e = .notFound start.path ∧
      ∀ directory, directory <+: start → ¬ HasConfig disk directory) ∧
    (∀ directory, Nearest disk start directory →
      governing disk path = load disk (pathIn directory)) ∧
    (governing disk path = .ok {} ↔
      ∀ directory, directory <+: start → ¬ HasConfig disk directory) := by
  intro location start
  obtain ⟨hfile, hother⟩ := startOf_eq hdisk hfree
  refine ⟨hfile, hother, ?_⟩
  obtain ⟨directory, hnearest, hfind⟩ | ⟨hnone, hfind⟩ :=
    searchIn_ancestors hdisk (clean_startOf hdisk path) hup start.path
  · have hfind : find disk path = .ok (pathIn directory) := hfind
    have hgoverning : governing disk path = load disk (pathIn directory) := by
      rw [governing, hfind]
    have hsome : ¬ ∀ directory, directory <+: start → ¬ HasConfig disk directory :=
      fun h => h directory hnearest.above hnearest.has
    refine ⟨fun found => ⟨fun h => ?_, ?_⟩, fun e => ⟨fun h => ?_, fun h => absurd h.2 hsome⟩, ?_,
      fun h => ?_, fun h => absurd h hsome⟩
    · rw [hfind] at h
      cases h
      exact ⟨directory, hnearest, rfl⟩
    · rintro ⟨other, hother, rfl⟩
      rw [hfind, hnearest.unique hother]
    · rw [hfind] at h
      cases h
    · intro other hother
      rw [hgoverning, hnearest.unique hother]
    · exact absurd rfl (path_of_load (hgoverning.symm.trans h))
  · have hfind : find disk path = .error (.notFound start.path) := hfind
    have hgoverning : governing disk path = .ok {} := by
      rw [governing, hfind]
    refine ⟨fun found => ⟨fun h => ?_, ?_⟩, fun e => ⟨fun h => ?_, ?_⟩, ?_, fun _ => hnone,
      fun _ => hgoverning⟩
    · rw [hfind] at h
      cases h
    · rintro ⟨directory, hnearest, -⟩
      exact absurd hnearest.has (hnone directory hnearest.above)
    · rw [hfind] at h
      cases h
      exact ⟨rfl, hnone⟩
    · rintro ⟨rfl, -⟩
      exact hfind
    · intro directory hnearest
      exact absurd hnearest.has (hnone directory hnearest.above)

/-- A file in a directory in which a directory goes by the name of a configuration. -/
private def nested : Disk where
  entries := [(["b"], .directory), (["b", "nyaa.yml"], .directory), (["b", "c.ny"], .file .empty),
    (["nyaa.yml"], .file .empty)]
  current := ["b"]

private theorem isTree_nested : nested.IsTree := by
  refine .of_entries (fun name hname => ?_) fun e he => ?_
  · rw [List.mem_singleton.mp hname]
    exact ⟨by decide, by decide, by decide⟩
  · simp only [nested, List.mem_cons, List.not_mem_nil, or_false] at he
    obtain rfl | rfl | rfl | rfl := he <;> rfl

/-- The directory is passed over, and the configuration at the root governs. -/
theorem find_nearest_nested :
    find nested "c.ny" = .ok "/nyaa.yml" ∧ governing nested "c.ny" = load nested "/nyaa.yml" := by
  let inner : Location := ["b"]
  have hstart : startOf nested "c.ny" = inner := rfl
  have hwithin : ∀ directory : Location, directory <+: startOf nested "c.ny" →
      directory = inner ∨ directory = [] := by
    intro directory h
    rw [hstart] at h
    simpa using List.prefix_concat_iff.mp (show directory <+: [] ++ inner from h)
  have hup : ∀ directory, directory <+: startOf nested "c.ny" →
      Unhindered nested (pathIn directory) := by
    intro directory h refusal hrefused
    obtain rfl | rfl := hwithin directory h <;> cases hrefused
  have hnone : ¬ HasConfig nested inner := by
    rintro ⟨_, ⟨⟩, h⟩
    cases h
  have hnearest : Nearest nested (startOf nested "c.ny") [] := by
    refine ⟨List.nil_prefix, ⟨_, rfl, rfl⟩, fun other h hhas => ?_⟩
    obtain rfl | rfl := hwithin other h
    · exact absurd hhas hnone
    · exact List.prefix_rfl
  obtain ⟨-, -, hfound, -, hgoverning, -⟩ :=
    find_nearest isTree_nested "c.ny" (fun _ h => by cases h) hup
  exact ⟨(hfound _).mpr ⟨[], hnearest, rfl⟩, hgoverning [] hnearest⟩

end Config

end Kotoba
