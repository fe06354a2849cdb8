import Kotoba.Proofs.Token.Scan

/-! Blanks and comments. Passing over what stands between tokens ends where a row of blanks and
comments ends, and nowhere else. -/
namespace Kotoba.Token

/-- The characters that open and close a block comment. -/
def fence : List Char := ['#', '#']

/-- A blank, or a comment with its end. A block comment is closed by the first fence that comes
after its opening. -/
inductive IsTrivium : List Char → Prop
  | blank {c : Char} (h : Text.isBlank c) : IsTrivium [c]
  | line (text : List Char) (hfirst : text.head? ≠ some '#') (hline : '\n' ∉ text) :
    IsTrivium ('#' :: (text ++ ['\n']))
  | block (text : List Char) (h : ¬ fence <:+: text ++ ['#']) : IsTrivium (fence ++ (text ++ fence))

/-- Blanks and comments in a row. -/
inductive IsTrivia : List Char → Prop
  | none : IsTrivia []
  | more {p w : List Char} (hp : IsTrivium p) (hw : IsTrivia w) : IsTrivia (p ++ w)

/-- What may stand at the end of a text: blanks and comments, the last of which may have no end. -/
inductive IsTrailing : List Char → Prop
  | closed {w : List Char} (hw : IsTrivia w) : IsTrailing w
  | line (text : List Char) {w : List Char} (hw : IsTrivia w) (hfirst : text.head? ≠ some '#')
    (hline : '\n' ∉ text) : IsTrailing (w ++ '#' :: text)
  | block (text : List Char) {w : List Char} (hw : IsTrivia w) (h : ¬ fence <:+: text) :
    IsTrailing (w ++ (fence ++ text))

theorem IsTrivium.trivia {p : List Char} (hp : IsTrivium p) : IsTrivia p := by
  rw [← List.append_nil p]
  exact .more hp .none

theorem IsTrivia.append {w u : List Char} (hw : IsTrivia w) (hu : IsTrivia u) :
    IsTrivia (w ++ u) := by
  induction hw with
  | none => exact hu
  | more hp _ ih =>
    rw [List.append_assoc]
    exact .more hp ih

/-- A text that goes on by one character gets a fence only if it ended with half of one. -/
theorem fence_infix_concat {text : List Char} {c : Char} :
    fence <:+: text ++ [c] ↔ fence <:+: text ∨ c = '#' ∧ ['#'] <:+ text := by
  have hsuffix : fence <:+ text ++ [c] ↔ c = '#' ∧ ['#'] <:+ text := by
    constructor
    · rintro ⟨before, h⟩
      rw [show fence = ['#'] ++ ['#'] from rfl, ← List.append_assoc] at h
      obtain ⟨htext, hc⟩ := List.append_inj' h rfl
      exact ⟨(List.cons.inj hc).1.symm, before, htext⟩
    · rintro ⟨rfl, before, rfl⟩
      exact ⟨before, by simp [fence]⟩
  rw [List.infix_concat_iff, hsuffix, or_comm]

/-- Whether a text that a hash comes after is still without a fence. -/
theorem fence_infix_hash {text : List Char} :
    fence <:+: text ++ ['#'] ↔ fence <:+: text ∨ ['#'] <:+ text := by
  rw [fence_infix_concat]
  simp

section Reading

/-- What was passed over to come to a gap. -/
inductive Inside : Gap → List Char → Prop
  | blanks {w : List Char} (hw : IsTrivia w) : Inside .blanks w
  | hash {w : List Char} (hw : IsTrivia w) : Inside .hash (w ++ ['#'])
  | line (text : List Char) {w : List Char} (hw : IsTrivia w) (hne : text ≠ [])
    (hfirst : text.head? ≠ some '#') (hline : '\n' ∉ text) : Inside .line (w ++ '#' :: text)
  | block (text : List Char) {w : List Char} (hw : IsTrivia w) (h : ¬ fence <:+: text ++ ['#']) :
    Inside .block (w ++ (fence ++ text))
  | blockHash (text : List Char) {w : List Char} (hw : IsTrivia w) (h : ¬ fence <:+: text ++ ['#']) :
    Inside .blockHash (w ++ (fence ++ (text ++ ['#'])))

theorem not_fence_infix_snoc {text : List Char} {c : Char} (h : ¬ fence <:+: text) (hc : c ≠ '#') :
    ¬ fence <:+: text ++ [c] ++ ['#'] := by
  rw [fence_infix_hash, fence_infix_concat]
  rintro ((hin | ⟨hhash, -⟩) | ⟨before, hlast⟩)
  · exact h hin
  · exact hc hhash
  · exact hc (List.cons.inj (List.append_inj' hlast rfl).2).1.symm

/-- One more character. -/
theorem Inside.after {gap gap' : Gap} {w : List Char} {c : Char} (h : Inside gap w)
    (hc : gap.after c = some gap') : Inside gap' (w ++ [c]) := by
  cases h with
  | blanks hw =>
    simp only [Gap.after] at hc
    split at hc
    · next hblank =>
      cases hc
      exact .blanks (hw.append (IsTrivium.blank hblank).trivia)
    · split at hc
      · next hhash =>
        cases hc
        rw [hhash]
        exact .hash hw
      · cases hc
  | @hash w hw =>
    rw [List.append_assoc]
    by_cases hhash : c = '#'
    · subst hhash
      cases hc
      exact .block [] hw (by decide)
    · by_cases hline : c = '\n'
      · subst hline
        cases hc
        exact .blanks (hw.append (IsTrivium.line [] (by simp) (by simp)).trivia)
      · simp only [Gap.after, if_neg hhash, if_neg hline] at hc
        cases hc
        exact .line [c] hw (by simp) (by simpa using hhash) (by simpa using Ne.symm hline)
  | line text hw hne hfirst hline =>
    rw [List.append_assoc, List.cons_append]
    by_cases hend : c = '\n'
    · subst hend
      cases hc
      exact .blanks (hw.append (IsTrivium.line text hfirst hline).trivia)
    · simp only [Gap.after, if_neg hend] at hc
      cases hc
      refine .line (text ++ [c]) hw (by simp) ?_ (by simpa [hline] using Ne.symm hend)
      rwa [List.head?_append, Option.or_of_isSome (List.isSome_head?.mpr hne)]
  | block text hw hfence =>
    rw [List.append_assoc, List.append_assoc]
    by_cases hhash : c = '#'
    · subst hhash
      cases hc
      exact .blockHash text hw hfence
    · simp only [Gap.after, if_neg hhash] at hc
      cases hc
      exact .block (text ++ [c]) hw
        (not_fence_infix_snoc (fun h => hfence (fence_infix_hash.mpr (.inl h))) hhash)
  | blockHash text hw hfence =>
    rw [List.append_assoc, List.append_assoc]
    by_cases hhash : c = '#'
    · subst hhash
      cases hc
      refine .blanks (hw.append ?_)
      rw [List.append_assoc]
      exact (IsTrivium.block text hfence).trivia
    · simp only [Gap.after, if_neg hhash] at hc
      cases hc
      exact .block (text ++ ['#'] ++ [c]) hw (not_fence_infix_snoc hfence hhash)

/-- What is passed over leads from one gap to another, and out of blanks only to a token. -/
theorem pass_inside {gap : Gap} {w : List Char} (h : Inside gap w) (cs : List Char) :
    ∃ u, cs = u ++ (pass gap cs).2 ∧ Inside (pass gap cs).1 (w ++ u) ∧
      ((pass gap cs).2 ≠ [] → (pass gap cs).1 = .blanks) := by
  induction cs generalizing gap w with
  | nil => exact ⟨[], rfl, by simpa [pass] using h, fun hne => absurd rfl hne⟩
  | cons c cs ih =>
    simp only [pass]
    cases hc : gap.after c with
    | some gap' =>
      obtain ⟨u, hu, hin, hout⟩ := ih (h.after hc)
      rw [List.append_assoc] at hin
      exact ⟨c :: u, congrArg (c :: ·) hu, hin, hout⟩
    | none =>
      refine ⟨[], rfl, by simpa using h, fun _ => ?_⟩
      cases gap <;> first | rfl | cases hc

theorem Inside.trailing {gap : Gap} {w : List Char} (h : Inside gap w) : IsTrailing w := by
  cases h with
  | blanks hw => exact .closed hw
  | hash hw => exact .line [] hw (by simp) (by simp)
  | line text hw _ hfirst hline => exact .line text hw hfirst hline
  | block text hw hfence => exact .block text hw fun h => hfence (fence_infix_hash.mpr (.inl h))
  | blockHash text hw hfence => exact .block (text ++ ['#']) hw hfence

/-- Blanks and comments stand before a token. -/
theorem trivia_before {cs : List Char} (hne : (pass .blanks cs).2 ≠ []) :
    ∃ w, cs = w ++ (pass .blanks cs).2 ∧ IsTrivia w := by
  obtain ⟨w, hw, hin, hout⟩ := pass_inside (.blanks .none) cs
  rw [hout hne, List.nil_append] at hin
  cases hin with
  | blanks htrivia => exact ⟨w, hw, htrivia⟩

/-- Where no token comes, there are blanks and comments up to the end. -/
theorem trailing_of_pass {cs : List Char} (hnil : (pass .blanks cs).2 = []) : IsTrailing cs := by
  obtain ⟨w, hw, hin, -⟩ := pass_inside (.blanks .none) cs
  rw [hnil, List.append_nil] at hw
  rw [hw]
  exact hin.trailing

end Reading

section Writing

theorem pass_line {text : List Char} (hline : '\n' ∉ text) :
    pass .line (text ++ ['\n']) = (.blanks, []) := by
  induction text with
  | nil => rfl
  | cons c text ih =>
    rw [List.mem_cons, not_or] at hline
    simp only [List.cons_append, pass, Gap.after, if_neg (Ne.symm hline.1)]
    exact ih hline.2

/-- A block comment goes on up to the first fence. -/
theorem pass_block : {text : List Char} → ¬ fence <:+: text ++ ['#'] →
    pass .block (text ++ fence) = (.blanks, [])
  | [], _ => rfl
  | [c], h => by
    have hc : c ≠ '#' := by
      rintro rfl
      exact h (List.infix_refl _)
    simp [pass, Gap.after, hc, fence]
  | c :: d :: text, h => by
    have hmore : ¬ fence <:+: (d :: text) ++ ['#'] := fun hin => h (List.infix_cons hin)
    by_cases hc : c = '#'
    · subst hc
      -- the character after a single hash is none, and both are passed over
      have hd : d ≠ '#' := by
        rintro rfl
        exact h (List.IsPrefix.isInfix ⟨text ++ ['#'], rfl⟩)
      have hrest : ¬ fence <:+: text ++ ['#'] := fun hin => hmore (List.infix_cons hin)
      simp only [List.cons_append, pass, Gap.after, if_pos, if_neg hd]
      exact pass_block hrest
    · simp only [List.cons_append, pass, Gap.after, if_neg hc]
      exact pass_block hmore

theorem pass_trivium {p : List Char} (hp : IsTrivium p) : pass .blanks p = (.blanks, []) := by
  cases hp with
  | blank h => simp [pass, Gap.after, h]
  | line text hfirst hline =>
    have hhash : Gap.blanks.after '#' = some .hash := rfl
    rw [pass, hhash]
    cases text with
    | nil => rfl
    | cons c text =>
      have hc : c ≠ '#' := by simpa using hfirst
      rw [List.mem_cons, not_or] at hline
      simp only [List.cons_append, pass, Gap.after, if_neg hc, if_neg (Ne.symm hline.1)]
      exact pass_line hline.2
  | block text h => exact pass_block h

/-- Blanks and comments are passed over. -/
theorem pass_trivia {w : List Char} (hw : IsTrivia w) (rest : List Char) :
    pass .blanks (w ++ rest) = pass .blanks rest := by
  induction hw with
  | none => rfl
  | more hp _ ih => rw [List.append_assoc, pass_append, pass_trivium hp, if_pos rfl, ih]

/-- Blanks and comments begin with a blank or a hash. -/
theorem IsTrivia.head {w : List Char} (hw : IsTrivia w) :
    ∀ ch ∈ w.head?, Text.isBlank ch ∨ ch = '#' := by
  induction hw with
  | none => simp
  | more hp _ _ =>
    cases hp with
    | blank h => simpa using .inl h
    | line => simp
    | block => simp [fence]

end Writing

end Kotoba.Token
