import Kotoba.Proofs.Syntax.Placed

/-! What a text stands for. Its tokens, up to the end of the input, are those that its tree is
derived from, and among them the tree lies. -/
namespace Kotoba.Syntax

open Token (Lexeme Kind Scan tokenize)
open Kotoba.Syntax.Parser

/-- The tokens of an entry and the tree they stand for. -/
inductive DerivesEntry (d : Dialect) : List Lexeme → Node → Prop
  | function {ts : List Lexeme} {f : FuncDef} (whole : Derives d .definition ts f) :
    DerivesEntry d ts (.function f)
  | body {ts : List Lexeme} {b : Body} (whole : Derives d (.body false) ts b) :
    DerivesEntry d ts (.body b)
  | expr {ts : List Lexeme} {e : Expr} (whole : Derives d .expr ts e) : DerivesEntry d ts (.expr e)

section Entries

variable {K : List Lexeme → Prop} (fuel : Nat)

theorem yields_comparisonAfter {x : Parser Expr} (hx : Builds .factor x) {left : Expr}
    {ts : List Lexeme} (hleft : Derives .loose .product ts left) (start : Position) :
    Yields K (comparisonAfter x fuel left start) fun us e => Derives .loose .expr (ts ++ us) e := by
  refine (yields_productFrom hx fuel hleft start).bind fun us product hproduct => ?_
  refine (yields_sumFrom hx fuel (.ofProduct hproduct) start).bind fun vs sum hsum => ?_
  refine (yields_comparisonFrom hx fuel hsum start).mono fun ws e he => ?_
  simpa using he

theorem yields_slotEntry : Yields K (slotEntry fuel) (DerivesEntry .loose) := by
  refine .quiet quiet_here fun start => (yields_slot (builds_sumExpr fuel)).bind ?_
  rintro _ ⟨array, index, slot⟩ ⟨ts, hindex, rfl⟩
  refine .test ?_ ?_
  · refine .bind (P := fun us first => Derives .loose .statement
      (.identifier array.name :: .of .openBracket :: (ts ++ .of .closeBracket :: us)) first) ?_
      fun us first hfirst => yields_skipSemicolon.bind ?_
    · refine .mark (.part (builds_expression fuel) fun us e he => .spanned fun span => ?_)
      simpa using Derives.update array slot span hindex he
    · rintro _ ⟨⟩ ⟨semicolon, rfl⟩
      refine .part (builds_body (builds_statement fuel) fuel false) fun vs rest hrest => ?_
      refine .spanned fun span => .body (.body false span ?_)
      cases hrest with
      | body _ _ hrest => simpa using Derives.statements semicolon hfirst hrest (by rintro ⟨⟩)
  · refine (yields_comparisonAfter fuel (builds_factor fuel) ?_ start).map fun us e he => .expr he
    simpa using Derives.ofFactor (.element array slot hindex)

theorem yields_entryNode : Yields K (entryNode fuel) (DerivesEntry .loose) := by
  have hbody : ∀ K, Yields K (.body <$> plainBody fuel) (DerivesEntry .loose) := fun K =>
    (builds_body (builds_statement fuel) fuel false K).map fun _ _ h => .body h
  have hexpr : ∀ K, Yields K (.expr <$> expression fuel) (DerivesEntry .loose) := fun K =>
    (builds_expression fuel K).map fun _ _ h => .expr h
  refine .kind fun l _ => ?_
  split
  · exact (builds_definition fuel _).map fun _ _ h => .function h
  · refine .peek fun l _ => ?_
    split
    case h_5 => exact yields_slotEntry fuel
    case h_6 => exact hexpr _
    all_goals exact hbody _
  · split
    · exact hbody _
    · exact hexpr _

theorem yields_conclude (n : Node) :
    Yields K (conclude n) fun ts _ => ∃ present, ts = semicolon? present := by
  have hend : ∀ K, Yields K
      (at? .endOfInput >>= fun b => if b then pure (some n) else unexpected ["end of input"])
      fun ts _ => ts = [] := by
    refine fun K => .quiet (quiet_gets _) fun b => ?_
    split
    · exact .pure rfl
    · exact .unexpected
  cases n with
  | expr e =>
    refine yields_skipSemicolon.bind ?_
    rintro _ ⟨⟩ ⟨present, rfl⟩
    refine (hend _).mono ?_
    rintro _ _ rfl
    exact ⟨present, List.append_nil _⟩
  | _ => exact (hend _).mono fun ts _ h => ⟨false, h⟩

/-- After an entry there is nothing more. -/
theorem at_end_of_conclude {n : Node} {r : Option Node} {s s' : State}
    (h : conclude n s = .ok r s') : s'.current.kind = .endOfInput ∧ r = some n := by
  have hend : ∀ {s s' : State}, (at? .endOfInput >>= fun b => if b then pure (some n)
      else unexpected ["end of input"] : Parser (Option Node)) s = .ok r s' →
      s'.current.kind = .endOfInput ∧ r = some n := by
    intro s s' h
    obtain ⟨b, _, hb, h⟩ := Step.bind_eq_ok h
    cases hb
    split at h
    · next hk =>
      cases h
      exact ⟨by simpa using hk, rfl⟩
    · cases h
  cases n with
  | expr e =>
    obtain ⟨_, _, _, h⟩ := Step.bind_eq_ok h
    exact hend h
  | _ => exact hend h

end Entries

section Texts

variable {limits : Token.Limits} {text : Bytes}

/-- How a tree is entered: the first token is fetched, the tree is parsed, and it is the last. -/
theorem parseEntry_cases {n : Node} {s' : State} (h : parseEntry limits text = .ok (some n) s') :
    ∃ s s₁ s₂, advance (.ofScan (tokenize limits text)) = .ok () s ∧
      enter "<Interactive>" s = .ok () s₁ ∧
      entryNode ((tokenize limits text).tokens.length + 2) s₁ = .ok n s₂ ∧
      conclude n s₂ = .ok (some n) s' := by
  rw [parseEntry, run, entry_eq] at h
  obtain ⟨_, s, hfetch, h⟩ := Step.bind_eq_ok h
  obtain ⟨ended, _, hended, h⟩ := Step.bind_eq_ok h
  cases hended
  split at h
  · cases h
  · obtain ⟨_, s₁, henter, h⟩ := Step.bind_eq_ok h
    obtain ⟨n', s₂, hnode, h⟩ := Step.bind_eq_ok h
    cases (at_end_of_conclude h).2
    exact ⟨s, s₁, s₂, hfetch, henter, hnode, h⟩

/-- How a program is parsed: the first token is fetched, and the rest is the program. -/
theorem parseProgram_cases {p : Program} {s' : State} (h : parseProgram limits text = .ok p s') :
    ∃ s, advance (.ofScan (tokenize limits text)) = .ok () s ∧
      fetchedProgram ((tokenize limits text).tokens.length + 2) s = .ok p s' := by
  obtain ⟨_, s, hfetch, h⟩ := Step.bind_eq_ok h
  exact ⟨s, hfetch, h⟩

/-- The first token of a text, all of whose tokens are left. -/
theorem fetched_text {s : State} (h : advance (.ofScan (tokenize limits text)) = .ok () s) :
    s.Proper ∧ s.left = (tokenize limits text).tokens ∧ At (tokenize limits text) 0 s := by
  obtain ⟨s', hfetch, hs, hleft, -⟩ | ⟨-, f, -, hfault⟩ :=
    fetch (properScan_scanAll limits ((Token.Cursor.ofText text).rest.length + 1) (.ofText text))
  · cases hfetch.symm.trans h
    exact ⟨hs, hleft, at_fetched h⟩
  · cases hfault.symm.trans h

/-- The tokens of a text stand for the tree it is entered as, but for a semicolon. -/
theorem derives_of_parseEntry {n : Node} {s : State} (h : parseEntry limits text = .ok (some n) s) :
    ∃ ts present, lexemesOf limits text = ts ++ semicolon? present ∧ DerivesEntry .loose ts n := by
  obtain ⟨s₀, s₁, s₂, hfetch, henter, hnode, hconclude⟩ := parseEntry_cases h
  obtain ⟨hs, hleft, -⟩ := fetched_text hfetch
  have halike := (quiet_enter _).alike_of_ok henter
  obtain ⟨hs₂, -, ts, hts, hn⟩ :=
    yields_entryNode (K := fun _ => True) _ s₁ n s₂ (halike.proper hs) trivial hnode
  obtain ⟨-, -, _, hus, present, rfl⟩ :=
    yields_conclude (K := fun _ => True) n s₂ _ s hs₂ trivial hconclude
  refine ⟨ts, present, ?_, hn⟩
  rw [hus, lexemes_eq_nil (at_end_of_conclude hconclude).1, List.append_nil, halike.lexemes,
    State.lexemes, hleft] at hts
  exact hts

end Texts

end Kotoba.Syntax
