import Kotoba.Proofs.Machine.Tale
import Mathlib.Data.Finset.Card

/-! How long results are remembered. A result stays until as many others have been used since it
was last used as can be remembered. -/
namespace Kotoba

namespace Recall

theorem without_append (key : Digest) (es es' : List (Digest × Value)) :
    without key (es ++ es') = without key es ++ without key es' := List.filter_append es es'

theorem without_cons_of_ne {key k : Digest} (hne : k ≠ key) (v : Value)
    (es : List (Digest × Value)) : without key ((k, v) :: es) = (k, v) :: without key es := by
  simp [without, hne]

theorem mem_without {key : Digest} {es : List (Digest × Value)} {e : Digest × Value} :
    e ∈ without key es ↔ e ∈ es ∧ e.1 ≠ key := by
  simp [without]

/-- A result is remembered, and only results of the given keys were used since it was. -/
structure Retains (memory : Recall) (others : Finset Digest) (key : Digest) (v : Value) : Prop where
  room : others.card < memory.capacity
  entries : ∃ newer older, memory.entries = newer ++ (key, v) :: older ∧
    (newer.map (·.1)).Nodup ∧ ∀ e ∈ newer, e.1 ≠ key ∧ e.1 ∈ others

variable {memory found : Recall} {others : Finset Digest} {key k : Digest} {v w : Value}

theorem Retains.lookup (h : memory.Retains others key v) :
    memory.entries.lookup key = some v := by
  obtain ⟨newer, older, hentries, -, hnewer⟩ := h.entries
  refine List.lookup_eq_some_iff.mpr ⟨newer, older, hentries, fun e he => ?_⟩
  have hne := (hnewer e he).1
  simpa using Ne.symm hne

theorem Retains.exists_get? (h : memory.Retains others key v) :
    ∃ found, memory.get? key = some (v, found) :=
  ⟨_, by rw [Recall.get?, h.lookup, Option.map_some]⟩

/-- A result that has just been used is retained. -/
theorem retains_of_head {rest : List (Digest × Value)} (hroom : others.card < memory.capacity)
    (hentries : memory.entries = (key, v) :: rest) : memory.Retains others key v where
  room := hroom
  entries := ⟨[], rest, hentries, List.nodup_nil, fun _ he => absurd he List.not_mem_nil⟩

/-- What is in front of a result once another one is used. -/
private theorem Retains.push (h : memory.Retains others key v) (hne : k ≠ key) (hk : k ∈ others) :
    ∃ newer older, (k, w) :: without k memory.entries = newer ++ (key, v) :: older ∧
      (newer.map (·.1)).Nodup ∧ (∀ e ∈ newer, e.1 ≠ key ∧ e.1 ∈ others) ∧
      newer.length ≤ others.card := by
  obtain ⟨newer, older, hentries, hnodup, hnewer⟩ := h.entries
  have hnodup' : (((k, w) :: without k newer).map (·.1)).Nodup := by
    rw [List.map_cons, List.nodup_cons]
    constructor
    · intro hmem
      obtain ⟨e, he, hek⟩ := List.mem_map.mp hmem
      exact (mem_without.mp he).2 hek
    · exact hnodup.sublist (List.Sublist.map _ List.filter_sublist)
  have hnewer' : ∀ e ∈ (k, w) :: without k newer, e.1 ≠ key ∧ e.1 ∈ others := by
    intro e he
    obtain rfl | he := List.mem_cons.mp he
    · exact ⟨hne, hk⟩
    · exact hnewer e (mem_without.mp he).1
  have hlength : ((k, w) :: without k newer).length ≤ others.card := by
    have hsubset : ((k, w) :: without k newer).map (·.1) ⊆ others.toList := by
      intro x hx
      obtain ⟨e, he, rfl⟩ := List.mem_map.mp hx
      exact Finset.mem_toList.mpr (hnewer' e he).2
    have hle := (List.subperm_of_subset hnodup' hsubset).length_le
    rwa [List.length_map, Finset.length_toList] at hle
  refine ⟨(k, w) :: without k newer, without k older, ?_, hnodup', hnewer', hlength⟩
  rw [hentries, without_append, without_cons_of_ne (Ne.symm hne), List.cons_append]

theorem Retains.add (h : memory.Retains others key v) (hne : k ≠ key) (hk : k ∈ others) (w : Value) :
    (memory.add k w).Retains others key v := by
  obtain ⟨newer, older, hentries, hnodup, hnewer, hlength⟩ := h.push (w := w) hne hk
  have hroom : newer.length < memory.capacity := Nat.lt_of_le_of_lt hlength h.room
  refine ⟨h.room, newer, older.take (memory.capacity - newer.length - 1), ?_, hnodup, hnewer⟩
  unfold Recall.add
  dsimp only
  rw [hentries, List.take_append, List.take_of_length_le (Nat.le_of_lt hroom)]
  obtain ⟨n, hn⟩ : ∃ n, memory.capacity - newer.length = n + 1 :=
    Nat.exists_eq_add_one_of_ne_zero (by omega)
  rw [hn, List.take_succ_cons, Nat.add_sub_cancel]

theorem Retains.get? (h : memory.Retains others key v) (hk : k ≠ key → k ∈ others)
    (hfound : memory.get? k = some (w, found)) : found.Retains others key v := by
  unfold Recall.get? at hfound
  obtain ⟨u, hu, hpair⟩ := Option.map_eq_some_iff.mp hfound
  obtain ⟨rfl, rfl⟩ := Prod.mk.inj hpair
  by_cases heq : k = key
  · subst heq
    rw [h.lookup] at hu
    obtain rfl := Option.some.inj hu
    exact retains_of_head h.room rfl
  · obtain ⟨newer, older, hentries, hnodup, hnewer, -⟩ := h.push (w := u) heq (hk heq)
    exact ⟨h.room, newer, older, hentries, hnodup, hnewer⟩

end Recall

namespace Machine

/-- The keys that are used in a record. -/
def keysUsed (record : List Moment) : List Digest :=
  record.filterMap fun moment => moment.note.result?.map (·.2.1)

theorem capacity_recallAfter (memory : Recall) (moment : Moment) :
    (recallAfter memory moment).capacity = memory.capacity := by
  unfold recallAfter
  cases moment.note with
  | answers f key v =>
    dsimp only
    unfold Recall.get?
    cases memory.entries.lookup key <;> rfl
  | _ => rfl

theorem capacity_foldl (memory : Recall) (record : List Moment) :
    (record.foldl recallAfter memory).capacity = memory.capacity := by
  induction record generalizing memory with
  | nil => rfl
  | cons moment rest ih => rw [List.foldl_cons, ih, capacity_recallAfter]

section Retained

variable {memory : Recall} {others : Finset Digest} {key : Digest} {v : Value}

private theorem retains_recallAfter {moment : Moment} (h : memory.Retains others key v)
    (hreplaces : moment.note.replaces key = false)
    (hused : ∀ k ∈ keysUsed [moment], k ≠ key → k ∈ others) :
    (recallAfter memory moment).Retains others key v := by
  unfold recallAfter
  cases hn : moment.note with
  | defines d =>
    rw [hn] at hreplaces
    cases hreplaces
  | returns f k w =>
    rw [hn] at hreplaces
    have hne : k ≠ key := by simpa [Note.replaces] using hreplaces
    exact h.add hne (hused k (by simp [keysUsed, hn, Note.result?]) hne) w
  | answers f k w =>
    dsimp only
    cases hfound : memory.get? k with
    | some found => exact h.get? (hused k (by simp [keysUsed, hn, Note.result?])) hfound
    | none => exact h
  | starts | ends | gives | executes | calls => exact h

/-- A result is not forgotten while few others are used. -/
theorem retains_foldl {record : List Moment} (h : memory.Retains others key v)
    (hreplaces : ∀ moment ∈ record, moment.note.replaces key = false)
    (hused : ∀ k ∈ keysUsed record, k ≠ key → k ∈ others) :
    (record.foldl recallAfter memory).Retains others key v := by
  induction record generalizing memory with
  | nil => exact h
  | cons moment rest ih =>
    have happend : keysUsed (moment :: rest) = keysUsed [moment] ++ keysUsed rest :=
      List.filterMap_append (l := [moment])
    rw [happend] at hused
    refine ih (retains_recallAfter h (hreplaces _ List.mem_cons_self) fun k hk => ?_)
      (fun later hlater => hreplaces later (List.mem_cons_of_mem _ hlater)) fun k hk => ?_
    · exact hused k (List.mem_append_left _ hk)
    · exact hused k (List.mem_append_right _ hk)

end Retained

end Machine

end Kotoba
