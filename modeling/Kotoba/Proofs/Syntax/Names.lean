import Kotoba.Proofs.Syntax.Completion

/-! The names of the functions in a program that was parsed. -/
namespace Kotoba

namespace Token

theorem readString_ne_identifier (limit : Nat) (start : Position) (length : Nat)
    (text cs : List Char) (here last : Position) (name : String) :
    (readString limit start length text cs here last).1 ≠ .ok (.identifier name) := by
  fun_induction readString limit start length text cs here last with
  | case7 _ _ _ _ _ _ _ _ _ _ _ ih | case8 _ _ _ _ _ _ _ _ _ _ ih => exact ih
  | _ => rintro ⟨⟩

/-- Names are made of letters. -/
theorem letters_of_readLexeme {limits : Limits} {c : Cursor} {name : String}
    (h : (readLexeme limits c).1 = .ok (.identifier name)) :
    ∀ ch ∈ name.toList, Text.isLetter ch := by
  unfold readLexeme at h
  split at h
  · cases h
  · split at h
    · unfold readWord at h
      dsimp only at h
      split at h
      · cases h
      · dsimp only at h
        split at h
        · cases h
        · cases h
          rw [String.toList_ofList]
          exact fun ch hch => List.all_eq_true.mp List.all_takeWhile ch hch
    · split at h
      · unfold readNumber at h
        split at h
        · cases h
        · dsimp only at h
          split at h
          · split at h <;> cases h
          · cases h
      · split at h
        · exact absurd h (readString_ne_identifier _ _ _ _ _ _ _ _)
        · unfold readSign at h
          dsimp only at h
          split at h <;> cases h

theorem letters_of_scan {limits : Limits} {c c' : Cursor} {t : Token} {name : String}
    (h : scan limits c = (.ok t, c')) (ht : t.lexeme = .identifier name) :
    ∀ ch ∈ name.toList, Text.isLetter ch := by
  unfold scan at h
  dsimp only at h
  split at h
  · cases h
    cases ht
  · next lexeme _ _ hread =>
    cases h
    have hfirst : (readLexeme limits (skipGap .blanks c.rest c.here c.last)).1 =
        .ok (.identifier name) := by
      rw [hread]
      exact congrArg Except.ok ht
    exact letters_of_readLexeme hfirst
  · cases h

/-- Every name that is scanned is made of letters. -/
theorem letters_of_scanAll {limits : Limits} {fuel : Nat} {c : Cursor} {t : Token} {name : String}
    (h : t ∈ (scanAll limits fuel c).tokens) (ht : t.lexeme = .identifier name) :
    ∀ ch ∈ name.toList, Text.isLetter ch := by
  induction fuel generalizing c with
  | zero => cases h
  | succ fuel ih =>
    rw [scanAll] at h
    split at h
    · cases h
    · next t' c' hscan =>
      split at h
      · cases h
      · obtain rfl | h := List.mem_cons.mp h
        · exact letters_of_scan hscan ht
        · exact ih h

end Token

namespace Syntax

open Kotoba.Syntax.Parser

theorem Reads.succeeds_of_ok {α ι : Type} {n : Nat} {n' : ι → Nat} {K : List Token.Kind → Prop}
    {follow : Follow} {eats : Bool} {x : Parser α} {y : ι → Parser α} {s s' : State} {a : α}
    (hx : Reads n n' K follow eats x y) (hs : s.Proper) (hK : K s.kinds) (hlen : s.kinds.length < n)
    (h : x s = .ok a s') : Succeeds n' follow eats y s s' := by
  have hread := hx s hs hK hlen
  rwa [h] at hread

theorem Parser.Quiet.alike_of_ok {α : Type} {x : Parser α} (hx : x.Quiet) {s s' : State} {a : α}
    (h : x s = .ok a s') : Alike s s' := by
  obtain ⟨_, s₁, hs₁, halike⟩ := hx.alike s
  cases hs₁.symm.trans h
  exact halike

/-- A name that was read is the current token. -/
theorem lexeme_of_expectName {s s' : State} {a : Ident} (h : expectName s = .ok a s') :
    s.current.lexeme = .identifier a.name := by
  obtain ⟨_, _, hcurrent, h⟩ := Step.bind_eq_ok h
  cases hcurrent
  cases hlexeme : s.current.lexeme with
  | identifier name =>
    rw [hlexeme] at h
    obtain ⟨_, _, -, h⟩ := Step.bind_eq_ok h
    cases h
    rfl
  | _ =>
    rw [hlexeme] at h
    cases h

/-- A definition takes its name from a token. -/
theorem name_of_definition {n : Nat} {s s' : State} {f : FuncDef} (hs : s.Proper)
    (hlen : s.kinds.length < n) (h : definition n s = .ok f s') :
    ∃ t ∈ s.left, t.lexeme = .identifier f.name.name := by
  rw [definition_eq] at h
  obtain ⟨_, s₁, henter, h⟩ := Step.bind_eq_ok h
  obtain ⟨_, s₂, hhere, h⟩ := Step.bind_eq_ok h
  obtain ⟨_, s₃, hdefine, h⟩ := Step.bind_eq_ok h
  obtain ⟨name, s₄, hname, h⟩ := Step.bind_eq_ok h
  obtain ⟨_, _, -, h⟩ := Step.bind_eq_ok h
  obtain ⟨_, _, -, h⟩ := Step.bind_eq_ok h
  obtain ⟨_, _, -, h⟩ := Step.bind_eq_ok h
  obtain ⟨_, _, -, h⟩ := Step.bind_eq_ok h
  cases h
  have h₁ := (quiet_enter _).alike_of_ok henter
  have h₂ := quiet_here.alike_of_ok hhere
  have hmark : Reads n (fun _ : Unit => n) (fun _ => True) none true (expect Mark.define) fun _ =>
      expect Mark.define := reads_expect (by decide)
  obtain ⟨taken, hleft, -⟩ := (hmark.succeeds_of_ok (h₂.proper (h₁.proper hs)) trivial
    (by rwa [h₂.kinds, h₁.kinds]) hdefine).suffix
  have hlexeme := lexeme_of_expectName hname
  refine ⟨s₃.current, ?_, hlexeme⟩
  have hne : s₃.current.kind ≠ .endOfInput := by
    rw [Token.kind, hlexeme]
    rintro ⟨⟩
  rw [← h₁.left, ← h₂.left, hleft, State.left, if_neg hne]
  simp

/-- Definitions take their names from tokens. -/
theorem names_of_definitions {n fuel : Nat} {s s' : State} {fs : List FuncDef} (hs : s.Proper)
    (hlen : s.kinds.length < n) (h : definitions (definition n) fuel s = .ok fs s') :
    ∀ f ∈ fs, ∃ t ∈ s.left, t.lexeme = .identifier f.name.name := by
  induction fuel generalizing s fs with
  | zero => cases h
  | succ fuel ih =>
    rw [definitions] at h
    obtain ⟨b, _, hb, h⟩ := Step.bind_eq_ok h
    cases hb
    split at h
    · obtain ⟨f, s₁, hf, h⟩ := Step.bind_eq_ok h
      obtain ⟨rest, s₂, hrest, h⟩ := Step.bind_eq_ok h
      cases h
      have hread : Reads n (fun _ : Unit => n) (fun _ => True) none true (definition n) fun _ =>
          definition n := reads_definition fun _ => Nat.le_refl n
      have hsucceeds := hread.succeeds_of_ok hs trivial hlen hf
      have hle := hsucceeds.length_le
      obtain ⟨taken, hleft, -⟩ := hsucceeds.suffix
      intro g hg
      obtain rfl | hg := List.mem_cons.mp hg
      · exact name_of_definition hs hlen hf
      · obtain ⟨t, ht, htg⟩ := ih hsucceeds.proper (by omega) hrest g hg
        exact ⟨t, by rw [hleft]; exact List.mem_append_right _ ht, htg⟩
    · cases h
      rintro _ ⟨⟩

/-- The names of the functions in a program are made of letters. -/
theorem letters_of_parseProgram {limits : Token.Limits} {text : Bytes} {p : Program} {s : State}
    (h : parseProgram limits text = .ok p s) :
    ∀ f ∈ p.functions, ∀ ch ∈ f.name.name.toList, Text.isLetter ch := by
  unfold parseProgram run program at h
  obtain ⟨_, s₁, hfetch, h⟩ := Step.bind_eq_ok h
  obtain ⟨_, s₂, hhere, h⟩ := Step.bind_eq_ok h
  obtain ⟨b, _, hb, h⟩ := Step.bind_eq_ok h
  cases hhere
  cases hb
  split at h
  · cases h
    rintro _ ⟨⟩
  · obtain ⟨_, s₃, henter, h⟩ := Step.bind_eq_ok h
    obtain ⟨fs, s₄, hfs, h⟩ := Step.bind_eq_ok h
    obtain ⟨_, _, -, h⟩ := Step.bind_eq_ok h
    obtain ⟨_, _, -, h⟩ := Step.bind_eq_ok h
    obtain ⟨_, _, -, h⟩ := Step.bind_eq_ok h
    obtain ⟨_, _, -, h⟩ := Step.bind_eq_ok h
    cases h
    obtain ⟨s₁', hfetch', hs, hleft, -⟩ | ⟨-, _, -, hfault⟩ :=
      fetch (properScan_scanAll limits _ (.ofText text))
    · cases hfetch'.symm.trans hfetch
      have h₃ := (quiet_enter _).alike_of_ok henter
      have hlen : s₃.kinds.length < (Token.tokenize limits text).tokens.length + 2 := by
        rw [h₃.kinds, State.kinds, hleft, List.length_map]
        exact Nat.lt_add_of_pos_right Nat.two_pos
      intro f hf
      obtain ⟨t, ht, hname⟩ := names_of_definitions (h₃.proper hs) hlen hfs f hf
      rw [h₃.left, hleft] at ht
      exact Token.letters_of_scanAll ht hname
    · cases hfault.symm.trans hfetch

end Syntax

end Kotoba
