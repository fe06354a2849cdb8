import Kotoba.Proofs.Syntax.Entry
import Kotoba.Proofs.Text.Utf8
import Kotoba.Proofs.Token.Scan

/-! Which entries more lines can complete: those that ended too early, and no others. -/
namespace Kotoba.Token

variable {limits : Limits}

/-- Every text has tokens, in whichever gap it begins. -/
theorem lexes_total (limits : Limits) (gap : Gap) (cs : List Char) :
    ∃ ks ending, Lexes limits gap cs ks ending := by
  by_cases hnil : (pass gap cs).2 = []
  · exact ⟨[], _, .done hnil⟩
  · cases hread : readKind limits (pass gap cs).2 with
    | none => exact ⟨[], none, .fault hnil hread⟩
    | some p =>
      obtain ⟨ks, ending, hrest, -⟩ :=
        scanAll_lexes limits (p.2.length + 1) { rest := p.2 } (Nat.lt_succ_self _)
      exact ⟨p.1 :: ks, ending, .token hnil hread hrest⟩

theorem tokenize_lexes (limits : Limits) (text : Bytes) :
    ∃ ks ending, Lexes limits .blanks text.chars ks ending ∧
      (tokenize limits text).Yields ks ending :=
  scanAll_lexes limits _ (.ofText text) (Nat.lt_succ_self _)

/-- How a kind of token can be written. -/
def Kind.spelling : Kind → String
  | .identifier => "a"
  | .integer => "0"
  | .mark m => m.name
  | _ => ""

/-- Tokens of the given kinds, one on each line. -/
def spellings : List Kind → Bytes
  | [] => ""
  | k :: ks => Bytes.ofString k.spelling ++ "\n" ++ spellings ks

end Kotoba.Token

namespace Kotoba.Syntax

open Token (Kind Limits Gap Lexes)

theorem properScan_scanAll (limits : Limits) (fuel : Nat) (c : Token.Cursor) :
    ProperScan (Token.scanAll limits fuel c) := by
  induction fuel generalizing c with
  | zero => exact ⟨fun _ h => absurd h List.not_mem_nil, fun t h => by cases h; rfl⟩
  | succ fuel ih =>
    rw [Token.scanAll]
    split
    · exact ⟨fun _ h => absurd h List.not_mem_nil, by rintro _ ⟨⟩⟩
    · next t c' _ =>
      split
      · next ht =>
        refine ⟨fun _ h => absurd h List.not_mem_nil, fun t' h => ?_⟩
        cases h
        rw [Token.kind, ht]
        rfl
      · next hne =>
        refine ⟨fun u hu => ?_, (ih c').ending⟩
        obtain rfl | hu := List.mem_cons.mp hu
        · intro hk
          obtain ⟨lexeme, start, stop⟩ := u
          cases lexeme <;> first | exact hne rfl | cases hk
        · exact (ih c').tokens u hu

section Spelling

variable {limits : Limits} (hl : 0 < limits.identifier)
include hl

theorem lexes_spelling {k : Kind} (hk : k ∈ fillers) :
    Lexes limits .blanks (Bytes.ofString k.spelling).chars [k] (some .blanks) := by
  have hone : ∀ cs, (Bytes.ofString k.spelling).chars = cs → cs ≠ [] →
      Token.pass .blanks cs = (.blanks, cs) → Token.readKind limits cs = some (k, []) →
      Lexes limits .blanks (Bytes.ofString k.spelling).chars [k] (some .blanks) := by
    rintro cs rfl hne hpass hread
    exact .token (by rw [hpass]; exact hne) (by rw [hpass]; exact hread) (.done rfl)
  have hname : Token.readKind limits ['a'] = some (.identifier, []) := by
    have hlen : ¬ limits.identifier < (['a'].takeWhile Text.isLetter).length := Nat.not_lt.mpr hl
    change Token.seen (Token.readWord limits { rest := ['a'] }) = _
    simp only [Token.readWord]
    rw [if_neg hlen]
    rfl
  simp only [fillers, List.mem_cons, List.not_mem_nil, or_false] at hk
  obtain rfl | rfl | rfl | rfl | rfl | rfl | rfl | rfl | rfl | rfl | rfl | rfl := hk
  · exact hone ['0'] (by decide) (by decide) rfl rfl
  · exact hone ['a'] (by decide) (by decide) rfl hname
  · exact hone ['('] (by decide) (by decide) rfl rfl
  · exact hone [')'] (by decide) (by decide) rfl rfl
  · exact hone ['['] (by decide) (by decide) rfl rfl
  · exact hone [']'] (by decide) (by decide) rfl rfl
  · exact hone ['{'] (by decide) (by decide) rfl rfl
  · exact hone ['}'] (by decide) (by decide) rfl rfl
  · exact hone [','] (by decide) (by decide) rfl rfl
  · exact hone [';'] (by decide) (by decide) rfl rfl
  · exact hone ['='] (by decide) (by decide) rfl rfl
  · exact hone ['=', '>'] (by decide) (by decide) rfl rfl

theorem lexes_spellings {ks : List Kind} (hks : ∀ k ∈ ks, k ∈ fillers) :
    Lexes limits .blanks (Token.spellings ks).chars ks (some .blanks) := by
  induction ks with
  | nil => exact .done rfl
  | cons k ks ih =>
    rw [Token.spellings, Bytes.chars_append_newline]
    exact (lexes_spelling hl (hks k List.mem_cons_self)).append
      (ih fun k hk => hks k (List.mem_cons_of_mem _ hk))

/-- A text without a fault can go on with tokens of any kinds that can be spelled. -/
theorem lexes_completion {cs : List Char} {ks : List Kind} {gap : Gap}
    (h : Lexes limits .blanks cs ks (some gap)) {more : List Kind} (hmore : ∀ k ∈ more, k ∈ fillers) :
    ∃ t : Bytes, Lexes limits .blanks (cs ++ '\n' :: t.chars) (ks ++ more) (some .blanks) := by
  have hspell := lexes_spellings hl hmore
  have hclose : Lexes limits .block (Bytes.ofString "##").chars [] (some .blanks) := by
    rw [show (Bytes.ofString "##").chars = ['#', '#'] by decide]
    exact .done rfl
  cases hgap : gap.afterLine with
  | blanks => exact ⟨Token.spellings more, h.append (hgap ▸ hspell)⟩
  | block =>
    refine ⟨Bytes.ofString "##" ++ "\n" ++ Token.spellings more, h.append ?_⟩
    rw [hgap, Bytes.chars_append_newline]
    exact hclose.append hspell
  | _ => cases gap <;> cases hgap

end Spelling

/-- A text with a line added has the same tokens and then more. -/
theorem longerScan_line (limits : Limits) (src t : Bytes) :
    ∃ more, LongerScan (Token.tokenize limits src) more
      (Token.tokenize limits (src ++ "\n" ++ t)) := by
  obtain ⟨ks, ending, hlexes, hyields⟩ := Token.tokenize_lexes limits src
  obtain ⟨ks', ending', hlexes', hyields'⟩ := Token.tokenize_lexes limits (src ++ "\n" ++ t)
  rw [Bytes.chars_append_newline] at hlexes'
  cases ending with
  | none =>
    obtain ⟨rfl, rfl⟩ := hlexes'.unique (hlexes.append_fault t.chars)
    refine ⟨[], properScan_scanAll _ _ _, ?_, fun _ _ => ⟨rfl, ?_⟩⟩
    · rw [hyields.kinds, hyields'.kinds, List.append_nil]
    · cases he : (Token.tokenize limits (src ++ "\n" ++ t)).ending with
      | error f => exact ⟨f, rfl⟩
      | ok e => exact nomatch hyields'.ending.mp ⟨e, he⟩
  | some gap =>
    obtain ⟨more, e, hmore⟩ := Token.lexes_total limits gap.afterLine t.chars
    obtain ⟨rfl, rfl⟩ := hlexes'.unique (hlexes.append hmore)
    refine ⟨more, properScan_scanAll _ _ _, ?_, fun f hf => ?_⟩
    · rw [hyields.kinds, hyields'.kinds]
    · obtain ⟨e, he⟩ := hyields.ending.mpr rfl
      rw [hf] at he
      cases he

/-- A text without a fault can be continued with tokens of the kinds that can be spelled. -/
theorem longerScan_completion {limits : Limits} (hl : 0 < limits.identifier) {src : Bytes}
    (hclean : ∃ e, (Token.tokenize limits src).ending = .ok e) {more : List Kind}
    (hmore : ∀ k ∈ more, k ∈ fillers) :
    ∃ t : Bytes, LongerScan (Token.tokenize limits src) more
        (Token.tokenize limits (src ++ "\n" ++ t)) ∧
      ∃ e, (Token.tokenize limits (src ++ "\n" ++ t)).ending = .ok e := by
  obtain ⟨ks, ending, hlexes, hyields⟩ := Token.tokenize_lexes limits src
  obtain ⟨gap, rfl⟩ := Option.isSome_iff_exists.mp (hyields.ending.mp hclean)
  obtain ⟨t, hlonger⟩ := lexes_completion hl hlexes hmore
  obtain ⟨ks', ending', hlexes', hyields'⟩ := Token.tokenize_lexes limits (src ++ "\n" ++ t)
  rw [Bytes.chars_append_newline] at hlexes'
  obtain ⟨rfl, rfl⟩ := hlexes'.unique hlonger
  refine ⟨t, ⟨properScan_scanAll _ _ _, ?_, fun f hf => ?_⟩, hyields'.ending.mpr rfl⟩
  · rw [hyields.kinds, hyields'.kinds]
  · obtain ⟨e, he⟩ := hclean
    rw [hf] at he
    cases he

/-- Whether an entry failed for want of more text is whether some lines complete it. -/
theorem isIncomplete_iff_exists_completion (identifier string : Int) (src : Bytes) (d : Diagnostic)
    (s : State) (h : parseEntry (.ofSettings identifier string) src = .error d s) :
    d.isIncomplete ↔ ∃ t v s', parseEntry (.ofSettings identifier string) (src ++ "\n" ++ t) =
      .ok v s' := by
  have hl : 0 < (Limits.ofSettings identifier string).identifier := by
    simp only [Limits.ofSettings]
    split <;> omega
  generalize Limits.ofSettings identifier string = limits at h hl ⊢
  have hproper : ProperScan (Token.tokenize limits src) := properScan_scanAll _ _ _
  constructor
  · intro hd
    obtain ⟨hclean, more, hmore, hrun⟩ := entry_completes hproper h hd
    obtain ⟨t, hlonger, hclean'⟩ := longerScan_completion hl hclean hmore
    exact ⟨t, hrun _ hlonger hclean'⟩
  · rintro ⟨t, v, s', ht⟩
    cases hd : d.isIncomplete with
    | true => rfl
    | false =>
      obtain ⟨more, hlonger⟩ := longerScan_line limits src t
      obtain ⟨d', s'', hd'⟩ := entry_persists hproper h hd hlonger
      exact nomatch ht.symm.trans hd'

/-- A call that ends within a comment among its arguments can be completed, and a string that
ends with its line cannot. -/
theorem isIncomplete_iff_exists_completion_call :
    (∃ d s, parseEntry (.ofSettings 0 0) "f(1, ## two" = .error d s ∧
      ∃ t v s', parseEntry (.ofSettings 0 0) ("f(1, ## two" ++ "\n" ++ t) = .ok v s') ∧
    ∃ d s, parseEntry (.ofSettings 0 0) "f(1, \"two" = .error d s ∧
      ¬ ∃ t v s', parseEntry (.ofSettings 0 0) ("f(1, \"two" ++ "\n" ++ t) = .ok v s' := by
  have hcomment : (match parseEntry (.ofSettings 0 0) "f(1, ## two" with
      | .error d _ => d.isIncomplete
      | _ => false) = true := by decide +kernel
  have hstring : (match parseEntry (.ofSettings 0 0) "f(1, \"two" with
      | .error d _ => d.isIncomplete
      | _ => true) = false := by decide +kernel
  constructor
  · cases h : parseEntry (.ofSettings 0 0) "f(1, ## two" with
    | error d s =>
      rw [h] at hcomment
      exact ⟨d, s, rfl, (isIncomplete_iff_exists_completion 0 0 _ d s h).mp hcomment⟩
    | _ =>
      rw [h] at hcomment
      cases hcomment
  · cases h : parseEntry (.ofSettings 0 0) "f(1, \"two" with
    | error d s =>
      rw [h] at hstring
      refine ⟨d, s, rfl, fun ht => ?_⟩
      have hd := (isIncomplete_iff_exists_completion 0 0 _ d s h).mpr ht
      exact nomatch hd.symm.trans hstring
    | _ =>
      rw [h] at hstring
      cases hstring

end Kotoba.Syntax
