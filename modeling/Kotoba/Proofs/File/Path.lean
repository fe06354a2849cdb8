import Mathlib.Data.List.Induction
import Kotoba.File.Path
import Kotoba.Proofs.File.Disk
import Kotoba.Proofs.Source.Position

/-! Paths and the locations they lead to. A path that spells a location is split into its names
again. On a tree, it leads to what stands at the location, or to nothing if nothing does. -/
namespace Kotoba

namespace Disk

/-- A name that an entry can have. -/
structure IsName (name : Bytes) : Prop where
  ne_empty : name ≠ .empty
  slashless : 0x2f ∉ name.toList
  not_dots : isDots name = false

/-- Whether a location is made of names that entries can have. -/
def Location.Clean (location : Location) : Prop := ∀ name ∈ location, IsName name

/-- Whatever stands on the disk stands in a directory, and relative paths start at a location that
can be named. -/
structure IsTree (d : Disk) : Prop where
  inside : ∀ location name entry, d.get? (location ++ [name]) = some entry →
    d.get? location = some .directory
  current : Location.Clean d.current

/-- Everything above an entry is a directory. -/
theorem IsTree.above {d : Disk} (hd : d.IsTree) {location rest : Location} {entry : Entry}
    (h : d.get? (location ++ rest) = some entry) (hrest : rest ≠ []) :
    d.get? location = some .directory := by
  induction rest using List.reverseRecOn generalizing entry with
  | nil => exact absurd rfl hrest
  | append_singleton rest name ih =>
    rw [← List.append_assoc] at h
    have hparent := hd.inside _ _ _ h
    by_cases hnil : rest = []
    · rwa [hnil, List.append_nil] at hparent
    · exact ih hparent hnil

/-- It is enough to look at the entries to tell that a disk is a tree. -/
theorem IsTree.of_entries {d : Disk} (hcurrent : Location.Clean d.current)
    (h : ∀ e ∈ d.entries, d.get? e.1.dropLast = some .directory) : d.IsTree where
  inside location name entry hget := by
    have hroot : (location ++ [name]).isEmpty = false := by simp
    rw [get?, hroot, if_neg Bool.false_ne_true] at hget
    obtain ⟨before, after, hentries, -⟩ := List.lookup_eq_some_iff.mp hget
    have hmem : (location ++ [name], entry) ∈ d.entries := by simp [hentries]
    simpa using h _ hmem
  current := hcurrent

private theorem slash_eq : Bytes.ofString "/" = Bytes.ofList [0x2f] := by decide

theorem toList_path (location : Location) :
    location.path.toList = 0x2f :: (Bytes.join "/" location).toList := by
  rw [Location.path, slash_eq, Bytes.toList_append]
  rfl

theorem path_ne_empty (location : Location) : location.path ≠ .empty := by
  intro h
  have hlist := toList_path location
  rw [h] at hlist
  cases hlist

/-- Names with slashes between them are split into the names. -/
theorem splitOn_join {names : Location} (hne : names ≠ [])
    (hnames : ∀ name ∈ names, 0x2f ∉ name.toList) :
    (Bytes.join "/" names).splitOn "/" = names := by
  induction names with
  | nil => exact absurd rfl hne
  | cons name names ih =>
    have hname := Bytes.splitOn_of_not_mem (hnames name List.mem_cons_self)
    by_cases hnil : names = []
    · rw [hnil, slash_eq]
      exact hname
    · rw [Bytes.join_cons _ _ hnil, slash_eq, Bytes.splitOn_append, hname, ← slash_eq,
        ih hnil fun n hn => hnames n (List.mem_cons_of_mem _ hn)]
      rfl

/-- The path of a location is split into the names of the location. -/
theorem names_path {location : Location} (h : location.Clean) :
    (location.path.splitOn "/").filter (fun name => !name.isEmpty) = location := by
  have hsplit : location.path.splitOn "/" =
      .empty :: (Bytes.join "/" location).splitOn "/" := by
    have hpath : location.path =
        .empty ++ Bytes.ofList [0x2f] ++ Bytes.join "/" location := by
      rw [Location.path, slash_eq, ByteArray.empty_append]
    rw [hpath, slash_eq, Bytes.splitOn_append]
    rfl
  have hfull : location.filter (fun name => !name.isEmpty) = location := by
    rw [List.filter_eq_self]
    intro name hname
    rw [Bytes.isEmpty_eq_false fun hnil => (h name hname).ne_empty (Bytes.eq_empty hnil)]
    rfl
  rw [hsplit]
  by_cases hnil : location = []
  · rw [hnil]
    rfl
  · rw [splitOn_join hnil fun name hname => (h name hname).slashless]
    exact hfull

/-- Going on by a name without slashes leads from a clean location to a clean one. -/
theorem clean_follow {location : Location} (h : location.Clean) {name : Bytes}
    (hname : 0x2f ∉ name.toList) : Location.Clean (follow location name) := by
  unfold follow
  split_ifs with hstay hback
  · exact h
  · exact fun n hn => h n (List.dropLast_subset _ hn)
  · intro n hn
    rw [List.mem_append, List.mem_singleton] at hn
    obtain hn | rfl := hn
    · exact h n hn
    · rw [Bool.or_eq_true, not_or] at hstay
      refine ⟨fun hempty => hstay.1 (by rw [hempty]; rfl), hname, ?_⟩
      rw [isDots, Bool.or_eq_false_iff]
      exact ⟨by simpa using hstay.2, by simpa using hback⟩

/-- Every path names a clean location. -/
theorem clean_absolute {d : Disk} (hd : d.IsTree) (path : Bytes) :
    Location.Clean (d.absolute path) := by
  have hfold : ∀ (names : List Bytes) (location : Location), location.Clean →
      (∀ name ∈ names, 0x2f ∉ name.toList) → Location.Clean (names.foldl follow location) := by
    intro names
    induction names with
    | nil => exact fun _ h _ => h
    | cons name names ih =>
      intro location h hnames
      exact ih _ (clean_follow h (hnames name List.mem_cons_self)) fun n hn =>
        hnames n (List.mem_cons_of_mem _ hn)
  refine hfold _ _ ?_ fun name hname => ?_
  · split
    · exact fun _ h => absurd h List.not_mem_nil
    · exact hd.current
  · rw [slash_eq] at hname
    exact Bytes.not_mem_of_mem_splitOn hname

/-- Below nothing there is nothing. -/
theorem IsTree.below {d : Disk} (hd : d.IsTree) {location : Location}
    (h : d.get? location = none) (rest : Location) : d.get? (location ++ rest) = none := by
  by_cases hrest : rest = []
  · rwa [hrest, List.append_nil]
  · cases hget : d.get? (location ++ rest) with
    | none => rfl
    | some entry =>
      rw [hd.above hget hrest] at h
      cases h

section Lookup

variable {d : Disk} {location : Location}

theorem enter_name {name : Bytes} (hname : IsName name) :
    d.enter location name = if nameLimit < name.size then .error .nameTooLong else
      match d.get? (location ++ [name]) with
      | some .directory => .ok (location ++ [name])
      | some _ => .error .notDirectory
      | none => .error .missing := by
  have hdots := hname.not_dots
  rw [isDots, Bool.or_eq_false_iff] at hdots
  exact (if_neg (ne_true_of_eq_false hdots.1)).trans (if_neg (ne_true_of_eq_false hdots.2))

/-- Names are followed to the location they make, unless something is missing on the way. -/
theorem walk_cases (hd : d.IsTree) {names : Location} (hclean : names.Clean)
    (h : ∀ refusal, d.walk location names = .error refusal → refusal = .missing) :
    d.walk location names = .ok (location ++ names) ∨
      d.walk location names = .error .missing ∧
        ∀ rest, d.get? (location ++ names ++ rest) = none := by
  induction names generalizing location with
  | nil => exact .inl (by rw [List.append_nil]; rfl)
  | cons name names ih =>
    have hname : IsName name := hclean name List.mem_cons_self
    have hwalk : d.walk location (name :: names) =
        d.enter location name >>= fun location => d.walk location names := rfl
    rw [hwalk] at h ⊢
    rw [enter_name hname] at h ⊢
    split_ifs at h ⊢ with hlong
    · exact absurd (h _ rfl) (by decide)
    · cases hget : d.get? (location ++ [name]) with
      | none =>
        refine .inr ⟨rfl, fun rest => ?_⟩
        have hnone := hd.below hget (names ++ rest)
        simpa [List.append_assoc] using hnone
      | some entry =>
        rw [hget] at h
        cases entry with
        | directory =>
          have hnames : Location.Clean names := fun n hn => hclean n (List.mem_cons_of_mem _ hn)
          have hrest := ih hnames h
          simp only [List.append_assoc, List.singleton_append] at hrest ⊢
          exact hrest
        | file _ | sink | full => exact absurd (h _ rfl) (by decide)

/-- The path of a location starts at the root and goes on by the names of the location. -/
theorem route_path (hclean : location.Clean) :
    (∃ refusal, d.route location.path = .error refusal ∧ refusal ≠ .missing) ∨
      ∃ slash, d.route location.path = .ok ⟨[], location, slash⟩ := by
  have hstart : location.path.data[0]? = some 0x2f := by
    have hfirst : location.path.toList[0]? = some 0x2f := by
      rw [toList_path]
      rfl
    rwa [Bytes.toList, Array.getElem?_toList] at hfirst
  have hfull : location.path.isEmpty = false :=
    Bytes.isEmpty_eq_false (by rw [toList_path]; exact List.cons_ne_nil _ _)
  rw [route, hfull, if_neg Bool.false_ne_true, if_pos hstart, names_path hclean]
  split_ifs
  · exact .inl ⟨_, rfl, by decide⟩
  · exact .inl ⟨_, rfl, by decide⟩
  · exact .inr ⟨_, rfl⟩

theorem find_of_route {path name : Bytes} {start parent : Location} {slash : Bool}
    (hname : IsName name) (h : d.route path = .ok ⟨start, parent ++ [name], slash⟩) :
    d.find path = d.walk start parent >>= fun parent =>
      if nameLimit < name.size then .error .nameTooLong
      else match d.get? (parent ++ [name]) with
        | none => .error .missing
        | some entry =>
          if slash && !entry.isDirectory then .error .notDirectory
          else .ok (parent ++ [name], entry) := by
  have hbind : ∀ {α β : Type} (a : α) (f : α → Except Refusal β), (.ok a >>= f) = f a :=
    fun _ _ => rfl
  rw [find, h, hbind, List.getLast?_concat, List.dropLast_concat]
  exact bind_congr fun _ => if_neg (ne_true_of_eq_false hname.not_dots)

/-- On a tree, the path of a location leads to what stands there, unless it is refused for another
reason than that nothing does. -/
theorem find_path (hd : d.IsTree) (hclean : location.Clean)
    (h : ∀ refusal, d.find location.path = .error refusal → refusal = .missing) :
    d.find location.path = match d.get? location with
      | some entry => .ok (location, entry)
      | none => .error .missing := by
  have hcases : (∃ refusal, d.route location.path = .error refusal ∧ refusal ≠ .missing) ∨
      ∃ slash, d.route location.path = .ok ⟨[], location, slash⟩ := route_path hclean
  obtain ⟨refusal, hrefused, hne⟩ | ⟨slash, hroute⟩ := hcases
  · have hfind : d.find location.path = .error refusal := by
      rw [find, hrefused]
      rfl
    exact absurd (h refusal hfind) hne
  rcases List.eq_nil_or_concat location with rfl | ⟨parent, name, rfl⟩
  · rw [find, hroute]
    rfl
  · have hname : IsName name := hclean name (by simp)
    have hparent : Location.Clean parent := fun n hn => hclean n (by simp [hn])
    rw [List.concat_eq_append] at *
    rw [find_of_route hname hroute] at h ⊢
    have hwalk : ∀ refusal, d.walk [] parent = .error refusal → refusal = .missing := by
      intro refusal hrefused
      apply h
      rw [hrefused]
      rfl
    obtain hok | ⟨hmissing, hnone⟩ := walk_cases hd hparent hwalk
    · rw [hok, List.nil_append] at h ⊢
      change ∀ refusal, (if nameLimit < name.size then _ else _) = Except.error refusal → _ at h
      change (if nameLimit < name.size then _ else _) = _
      split_ifs at h ⊢ with hlong
      · exact absurd (h _ rfl) (by decide)
      · cases hget : d.get? (parent ++ [name]) with
        | none => rfl
        | some entry =>
          rw [hget] at h
          cases hslash : slash && !entry.isDirectory with
          | false => simp [hslash]
          | true => exact absurd (h .notDirectory (by simp [hslash])) (by decide)
    · have hget : d.get? (parent ++ [name]) = none := hnone [name]
      rw [hmissing, hget]
      rfl

end Lookup

end Disk

end Kotoba
