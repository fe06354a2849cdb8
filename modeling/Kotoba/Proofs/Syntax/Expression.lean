import Kotoba.Proofs.Syntax.Takes
import Kotoba.Syntax.Expression

/-! How expressions take in tokens. -/
namespace Kotoba.Syntax

open Token (Kind)
open Kotoba.Syntax.Parser

instance : Nonempty Operator := ⟨⟨.add, {}⟩⟩

instance : Nonempty Ident := ⟨⟨"", {}⟩⟩

instance : Nonempty Expr := ⟨.bool true {}⟩

/-- What may follow an expression without going on with it. -/
abbrev endsExpr : Follow :=
  some [.endOfInput, .mark .closeParen, .mark .closeBracket, .mark .closeBrace, .mark .comma,
    .mark .semicolon]

variable {α ι : Type} {n : Nat} {n' : ι → Nat} {K : List Kind → Prop} {follow : Follow} {k : Kind}

/-- How a production takes in an expression, which may be a token of kind `k`. -/
abbrev TakesExpr (n : Nat) (n' : ι → Nat) (k : Kind) (x : Parser Expr) (y : ι → Parser Expr) : Prop :=
  Takes n n' (fun _ => True) endsExpr [k] true x y

theorem reads_operator (op op' : Op) (hK : ∀ ks, K ks → first ks ≠ .endOfInput) :
    Reads n n' K none true (operator op) fun _ : ι => operator op' :=
  Reads.quiet (quiet_gets _) (fun _ => quiet_gets _) fun _ => (Reads.passes hK).before_pure _ _

theorem fills_operator (op : Op) : Fills n follow [k] (operator op) :=
  .quiet (quiet_gets _) fun _ => (Fills.advance k).seq (fun _ => .pure _)
    (Follow.joins_nil fun _ h => h)

theorem reads_leaf (build : Span → Expr) (build' : ι → Span → Expr)
    (hK : ∀ ks, K ks → first ks ≠ .endOfInput) :
    Reads n n' K follow true (leaf build) fun i => leaf (build' i) := by
  refine .quiet quiet_here (fun _ => quiet_here) fun start => ?_
  exact (Reads.passes hK).andThen fun _ => .spanned _ _ _ _

theorem fills_leaf (build : Span → Expr) : Fills n follow [k] (leaf build) :=
  .quiet quiet_here fun _ => (Fills.advance k).seq
    (fun _ => .quiet (quiet_finish _) fun _ => .pure _) (Follow.joins_nil fun _ h => h)

section Chains

variable {op? : Kind → Option Op} (hop : ∀ k, endsExpr.Has k → op? k = none) (layer : Layer)
  {x : Parser Expr} {y : ι → Parser Expr}
include hop

theorem takes_chain (h : TakesExpr n n' k x y) (hle : ∀ i, n ≤ n' i) (start : Position)
    (left : Expr) (start' : ι → Position) (left' : ι → Expr) :
    Takes n n' (fun _ => True) endsExpr [] false (chain layer op? x start n left) fun i =>
      chain layer op? (y i) (start' i) (n' i) (left' i) := by
  refine (Takes.fueled (x := fun fuel left => chain layer op? x start fuel left)
    (y := fun fuel i (c : Position × Expr) => chain layer op? (y i) c.1 fuel c.2)
    (by decide) (fun i m _ c => ?_) (fun m m' _ hm hm' ih left => ?_) hle (Nat.le_refl _)
    (fun _ => Nat.le_refl _) left).reindex fun i => (i, start' i, left' i)
  · refine Fills.choose_nil fun k hk => ?_
    rw [hop k hk]
    exact .pure _
  · refine Reads.choose (fun k => ?_) fun _ _ i k hk => by rw [hop k hk, hop _ (by decide)]
    cases hk : op? k with
    | none => exact .pure _ _
    | some op =>
      have hne : k ≠ .endOfInput := by
        rintro rfl
        rw [hop _ (by decide)] at hk
        cases hk
      have hoperand := h.within (Nat.le_of_succ_le hm) fun i => Nat.le_of_succ_le (hm' i)
      -- after the operator there is one token less
      exact Reads.idle (Reads.eat (reads_operator op op fun ks hks => hks.2 ▸ hne) fun op =>
        (hoperand.reindex _).goOn fun right =>
          .quiet (quiet_finish _) (fun _ => quiet_finish _) fun span =>
            (ih _).reindex fun i : (((ι × Position × Expr) × Operator) × Expr) × Span =>
              (i.1.1.1.1, i.1.1.1.2.1, .binary layer i.1.1.1.2.2 i.1.1.2 i.1.2 i.2))

end Chains

section Layers

variable {x : Parser Expr} {y : ι → Parser Expr} (h : TakesExpr n n' k x y) (hle : ∀ i, n ≤ n' i)
include h hle

theorem takes_productFrom (left : Expr) (start : Position) (left' : ι → Expr)
    (start' : ι → Position) :
    Takes n n' (fun _ => True) endsExpr [] false (productFrom x n left start) fun i =>
      productFrom (y i) (n' i) (left' i) (start' i) :=
  takes_chain (by decide) _ h hle _ _ _ _

theorem takes_product : TakesExpr n n' k (product x n) fun i => product (y i) (n' i) :=
  .quiet quiet_here (fun _ => quiet_here) fun _ => (h.reindex _).goOn fun _ =>
    takes_productFrom (h.reindex _) (fun _ => hle _) _ _ _ _

theorem takes_sumFrom (left : Expr) (start : Position) (left' : ι → Expr)
    (start' : ι → Position) :
    Takes n n' (fun _ => True) endsExpr [] false (sumFrom x n left start) fun i =>
      sumFrom (y i) (n' i) (left' i) (start' i) :=
  takes_chain (by decide) _ (takes_product h hle) hle _ _ _ _

theorem takes_sum : TakesExpr n n' k (sum x n) fun i => sum (y i) (n' i) :=
  .quiet quiet_here (fun _ => quiet_here) fun _ => ((takes_product h hle).reindex _).goOn fun _ =>
    takes_sumFrom (h.reindex _) (fun _ => hle _) _ _ _ _

theorem takes_comparisonFrom (left : Expr) (start : Position) (left' : ι → Expr)
    (start' : ι → Position) :
    Takes n n' (fun _ => True) endsExpr [] false (comparisonFrom x n left start) fun i =>
      comparisonFrom (y i) (n' i) (left' i) (start' i) := by
  have hop : ∀ k, endsExpr.Has k → relationalOp? k = none := by decide
  refine Takes.choose (fun k => ?_) (fun i k hk => by rw [hop k hk, hop _ (by decide)]) fun i =>
    .pure _
  cases hk : relationalOp? k with
  | none => exact .pure _ _
  | some op =>
    have hne : k ≠ .endOfInput := by
      rintro rfl
      cases hk
    exact Reads.idle (Reads.andThen (reads_operator op op fun ks hks => hks.2 ▸ hne) fun _ =>
      ((takes_sum h hle).reindex _).goOn fun _ => .spanned _ _ _ _)

theorem takes_comparison : TakesExpr n n' k (comparison x n) fun i => comparison (y i) (n' i) :=
  .quiet quiet_here (fun _ => quiet_here) fun _ => ((takes_sum h hle).reindex _).goOn fun _ =>
    takes_comparisonFrom (h.reindex _) (fun _ => hle _) _ _ _ _

theorem takes_comparisonAfter (first : Expr) (start : Position) (first' : ι → Expr)
    (start' : ι → Position) :
    Takes n n' (fun _ => True) endsExpr [] false (comparisonAfter x n first start) fun i =>
      comparisonAfter (y i) (n' i) (first' i) (start' i) :=
  (takes_productFrom h hle _ _ _ _).goOn fun _ =>
    (takes_sumFrom (h.reindex _) (fun _ => hle _) _ _ _ _).goOn fun _ =>
      takes_comparisonFrom (h.reindex _) (fun _ => hle _) _ _ _ _

end Layers

/-- The text of a string literal. -/
def textOf : Token.Lexeme → String
  | .string text => text
  | _ => ""

/-- The prompt that may stand between the parentheses of an input. -/
def optionalPrompt : Parser (Option Prompt) := do
  let token ← current
  if token.kind = .string then
    advance
    pure (some ⟨textOf token.lexeme, token.span⟩)
  else pure none

theorem inputLine_eq : inputLine = (do
    let start ← here
    expect Mark.input
    expect Mark.openParen
    let prompt ← optionalPrompt
    expect Mark.closeParen
    pure (.input prompt (← finish start))) := by
  unfold inputLine optionalPrompt
  simp only [bind_assoc]
  refine bind_congr fun _ => bind_congr fun _ => bind_congr fun _ => bind_congr fun token => ?_
  obtain ⟨lexeme, start, stop⟩ := token
  cases lexeme with
  | string text => simp [Token.kind, Token.Lexeme.kind, textOf]
  | _ => rfl

/-- An expression or a list of them, where there may be none. -/
def optionalExpr (x : Parser α) (default : α) : Parser α := do
  if startsExpression (← kind) then x else pure default

theorem arguments_eq (expr : Parser Expr) (fuel : Nat) : arguments expr fuel = (do
    expect Mark.openParen
    let args ← optionalExpr (commaList expr fuel) []
    expect Mark.closeParen
    pure args) := by
  unfold arguments optionalExpr
  simp only [bind_assoc]
  refine bind_congr fun _ => bind_congr fun k => ?_
  split <;> rfl

theorem takes_optionalExpr {x : Parser α} {y : ι → Parser α} (a : α)
    (h : Reads n n' (fun _ => True) (some [.mark .closeParen]) true x y) :
    Takes n n' (fun _ => True) (some [.mark .closeParen]) [] false (optionalExpr x a)
      fun i => optionalExpr (y i) a := by
  refine Takes.choose (fun k => ?_) (fun i k hk => ?_) fun i => .pure _
  · cases hk : startsExpression k with
    | false => exact .pure _ _
    | true => exact (h.under fun _ _ => trivial).idle
  · obtain rfl := List.mem_singleton.mp hk
    rfl

section Parts

variable {x : Parser Expr} {y : ι → Parser Expr} (h : TakesExpr n n' k x y)
include h

theorem takes_arguments (hle : ∀ i, n ≤ n' i) :
    Takes n n' K none [.mark .openParen, .mark .closeParen] true (arguments x n) fun i =>
      arguments (y i) (n' i) := by
  have hlist : Takes n n' (fun _ => True) (some [.mark .closeParen]) [k] true (commaList x n)
      fun i => commaList (y i) (n' i) :=
    takes_commaList h (by decide) (by decide) hle
  simp only [arguments_eq]
  exact (takes_expect _ (by decide)).andThen fun _ =>
    (takes_optionalExpr [] (hlist.reindex _).reads).upTo
      (fun _ => (takes_expect _ (by decide)).goOn fun _ => .pure _ _) (by decide)

theorem takes_readCount :
    Takes n n' (fun _ => True) (some [.mark .closeParen]) [] false (readCount x)
      fun i => readCount (y i) := by
  have hcount : Takes n n' (fun _ => True) (some [.mark .closeParen]) [k] true (some <$> x)
      fun i => some <$> y i :=
    (h.followed (by decide)).map _ _
  refine Takes.test (by decide) (by decide) ?_ (.pure _ _)
  exact Reads.idle (Reads.andThen (.passes fun ks hks => by rw [hks.2]; decide) fun _ =>
    takes_optionalExpr none (hcount.reindex _).reads)

theorem reads_call (hle : ∀ i, n ≤ n' i) :
    Reads (n + 1) (n' · + 1) K none true (call x n) fun i => call (y i) (n' i) :=
  .quiet quiet_here (fun _ => quiet_here) fun _ => reads_expectName.eat fun _ =>
    (takes_arguments (h.reindex _) fun _ => hle _).goOn fun _ => .spanned _ _ _ _

theorem reads_slot :
    Reads (n + 1) (n' · + 1) K none true (slot x) fun i => slot (y i) :=
  .quiet quiet_here (fun _ => quiet_here) fun _ => reads_expectName.eat fun _ =>
    (takes_expect _ (by decide)).andThen fun _ => (h.reindex _).upTo
      (fun _ => (takes_expect _ (by decide)).goOn fun _ => .spanned _ _ _ _) (by decide)

theorem reads_group : Reads (n + 1) (n' · + 1) K none true (group x) fun i => group (y i) :=
  .quiet quiet_here (fun _ => quiet_here) fun _ =>
    (reads_parenthesized (h.reindex _) (by decide)).andThen fun _ => .spanned _ _ _ _

variable (hK : ∀ ks, K ks → first ks ≠ .endOfInput)
include hK

theorem reads_readFile :
    Reads (n + 1) (n' · + 1) K none true (readFile x) fun i => readFile (y i) :=
  .quiet quiet_here (fun _ => quiet_here) fun _ => (Reads.passes hK).eat fun _ =>
    (takes_expect _ (by decide)).andThen fun _ => takes_expectName.andThen fun _ =>
      (takes_readCount (h.reindex _)).upTo
        (fun _ => (takes_expect _ (by decide)).goOn fun _ => .spanned _ _ _ _) (by decide)

theorem reads_conversion (build : Expr → Span → Expr) :
    Reads (n + 1) (n' · + 1) K none true (conversion x build) fun i => conversion (y i) build :=
  .quiet quiet_here (fun _ => quiet_here) fun _ => (Reads.passes hK).eat fun _ =>
    (takes_parenthesized (h.reindex _) (by decide)).goOn fun _ => .spanned _ _ _ _

theorem reads_negation (op : Op) :
    Reads (n + 1) (n' · + 1) K endsExpr true (negation op x) fun i => negation op (y i) :=
  .quiet quiet_here (fun _ => quiet_here) fun _ => (reads_operator op op hK).eat fun _ =>
    (h.reindex _).goOn fun _ => .spanned _ _ _ _

end Parts

theorem reads_fileVerb [Nonempty α] (build : Ident → Span → α)
    (hK : ∀ ks, K ks → first ks ≠ .endOfInput) :
    Reads n n' K none true (fileVerb build) fun _ : ι => fileVerb build := by
  have hname : ∀ {κ : Type} {m' : κ → Nat}, Takes n m' (fun _ => True) none [.identifier] true
      expectName fun _ : κ => expectName := takes_expectName
  exact .quiet quiet_here (fun _ => quiet_here) fun _ => (Reads.passes hK).andThen fun _ =>
    (takes_parenthesized hname trivial).goOn fun _ => .spanned _ _ _ _

theorem takes_optionalPrompt :
    Takes n n' K (some [.mark .closeParen]) [] false optionalPrompt fun _ : ι => optionalPrompt := by
  have hne : ∀ t : Token, Follow.Has (some [.mark .closeParen]) t.kind → t.kind ≠ .string := by
    intro t ht
    rw [List.mem_singleton.mp ht]
    decide
  refine ⟨?_, fun _ => ?_, by decide⟩
  · refine Reads.chooseToken (fun t => ?_) fun _ _ _ t e ht he => ?_
    · by_cases hk : t.kind = .string
      · rw [if_pos hk]
        refine Reads.of_eq ?_ fun j => if_pos (j.2.2.trans hk)
        refine ((Reads.passes fun ks hks => ?_).before_pure _ _).idle
        rw [hks.2, hk]
        decide
      · rw [if_neg hk]
        exact (Reads.pure _ _).of_eq fun j => if_neg fun h => hk (j.2.2.symm.trans h)
    · rw [if_neg (hne t ht), if_neg (he ▸ by decide)]
  · refine Fills.chooseToken_nil fun t ht => ?_
    rw [if_neg (hne t ht)]
    exact .pure _

theorem reads_inputLine :
    Reads n n' K follow true inputLine fun _ : ι => inputLine := by
  simp only [inputLine_eq]
  refine .quiet quiet_here (fun _ => quiet_here) fun _ => ?_
  exact (reads_expect (by decide)).andThen fun _ => (takes_expect _ (by decide)).andThen fun _ =>
    takes_optionalPrompt.upTo
      (fun _ => (takes_expect _ (by decide)).goOn fun _ => .spanned _ _ _ _) (by decide)

/-- A name is followed by a parenthesis, a bracket, or something that does not belong to it. -/
theorem reads_reference {e s : Parser Expr} {e' s' : ι → Parser Expr} (he : TakesExpr n n' k e e')
    (hs : TakesExpr n n' k s s') (hle : ∀ i, n ≤ n' i) (name : String) (name' : ι → String)
    (hK : ∀ ks, K ks → first ks ≠ .endOfInput) :
    Reads (n + 1) (n' · + 1) K endsExpr true (reference e s n name) fun i =>
      reference (e' i) (s' i) (n' i) (name' i) := by
  have hleaf : ∀ {K' : List Kind → Prop}, (∀ ks, K' ks → K ks) →
      Reads (n + 1) (n' · + 1) K' endsExpr true (leaf fun span => .name ⟨name, span⟩)
        fun i => leaf fun span => .name ⟨name' i, span⟩ :=
    fun h => reads_leaf _ _ fun ks hks => hK ks (h ks hks)
  refine Reads.peek (fun h => hK [] h rfl) (fun k _ => ?_) (fun i k hk => ?_)
    fun t k ht hc htk hKt hlen => ?_
  · cases k with
    | mark m =>
      cases m
      case openParen => exact (reads_call he hle).followed fun _ _ => trivial
      case openBracket =>
        exact ((reads_slot hs).before_pure _ _).followed fun _ _ => trivial
      all_goals exact hleaf fun _ h => h.1
    | _ => exact hleaf fun _ h => h.1
  · cases k with
    | mark m => cases m <;> first | rfl | exact absurd hk (by decide)
    | _ => rfl
  · have hfill : Fills (n + 1) endsExpr [k] (leaf fun span => .name ⟨name, span⟩) := fills_leaf _
    exact .inl ((hleaf fun _ h => h).succeeds hfill ht hc htk (by decide) (htk ▸ hKt) hlen)

/-- The literal in a token. -/
def literalOf : Token.Lexeme → Span → Expr
  | .integer value => .int (Int64.ofNat value)
  | .float value => .float value
  | lexeme => .string (textOf lexeme)

/-- The factor that begins with a token of the given kind. -/
def factorAt (expr sum factor : Parser Expr) (fuel : Nat) (lexeme : Token.Lexeme) :
    Kind → Parser Expr
  | .integer | .float | .string => leaf (literalOf lexeme)
  | .identifier => reference expr sum fuel (nameOf lexeme)
  | .mark .yes => leaf (.bool true)
  | .mark .no => leaf (.bool false)
  | .mark .openParen => group expr
  | .mark .not => negation .not factor
  | .mark .minus => negation .sub factor
  | .mark .input => inputLine
  | .mark .asChar => conversion expr .charOf
  | .mark .asInt => conversion expr .codeOf
  | .mark .length => conversion expr .length
  | .mark .readFile => readFile expr
  | .mark .readLine => fileVerb .readLine
  | .mark .endOfFile => fileVerb .atEnd
  | _ => unexpected ["expression"]

theorem factorWith_eq (expr sum factor : Parser Expr) (fuel : Nat) :
    factorWith expr sum factor fuel =
      current >>= fun t => factorAt expr sum factor fuel t.lexeme t.kind := by
  refine bind_congr fun t => ?_
  obtain ⟨lexeme, start, stop⟩ := t
  cases lexeme with
  | mark m _ => cases m <;> rfl
  | _ => rfl

section Factors

variable {e s f : Parser Expr} {e' s' f' : ι → Parser Expr} (he : TakesExpr n n' k e e')
  (hs : TakesExpr n n' k s s') (hf : TakesExpr n n' k f f') (hle : ∀ i, n ≤ n' i)
include he hs hf hle

theorem reads_factorAt (lexeme : Token.Lexeme) (lexeme' : ι → Token.Lexeme) (k : Kind) :
    Reads (n + 1) (n' · + 1) (fun ks => K ks ∧ first ks = k) endsExpr true
      (factorAt e s f n lexeme k) fun i => factorAt (e' i) (s' i) (f' i) (n' i) (lexeme' i) k := by
  have hK : k ≠ .endOfInput → ∀ ks, K ks ∧ first ks = k → first ks ≠ .endOfInput :=
    fun hne ks hks => hks.2 ▸ hne
  cases k with
  | endOfInput => exact .unexpected _ _
  | identifier => exact reads_reference he hs hle _ _ (hK (by decide))
  | integer | float | string => exact reads_leaf _ _ (hK (by decide))
  | mark m =>
    cases m
    case yes | no => exact reads_leaf _ _ (hK (by decide))
    case openParen => exact (reads_group he).followed fun _ _ => trivial
    case not | minus => exact reads_negation hf (hK (by decide)) _
    case input => exact reads_inputLine
    case asChar | asInt | length =>
      exact (reads_conversion he (hK (by decide)) _).followed fun _ _ => trivial
    case readFile => exact (reads_readFile he (hK (by decide))).followed fun _ _ => trivial
    case readLine | endOfFile => exact (reads_fileVerb _ (hK (by decide))).followed fun _ _ => trivial
    all_goals exact .unexpected _ _

theorem reads_factorWith :
    Reads (n + 1) (n' · + 1) K endsExpr true (factorWith e s f n) fun i =>
      factorWith (e' i) (s' i) (f' i) (n' i) := by
  simp only [factorWith_eq]
  refine Reads.chooseToken (fun t => ?_) fun h => nomatch h
  refine (reads_factorAt (he.reindex Prod.fst) (hs.reindex Prod.fst) (hf.reindex Prod.fst)
    (fun _ => hle _) _ (fun j => j.2.1.lexeme) t.kind).of_eq fun j => ?_
  rw [j.2.2]

end Factors

/-- A number is a factor, and so is a name. -/
theorem fills_factorWith (hk : k = .integer ∨ k = .identifier) (e s f : Parser Expr) (m : Nat) :
    Fills n endsExpr [k] (factorWith e s f m) := by
  rw [factorWith_eq]
  refine Fills.chooseToken fun t ht => ?_
  rw [ht]
  obtain rfl | rfl := hk
  · exact fills_leaf _
  · refine Fills.peek_last fun k hk => ?_
    cases k with
    | mark m => cases m <;> first | exact fills_leaf _ | exact absurd hk (by decide)
    | _ => exact fills_leaf _

theorem takes_factor (hk : k = .integer ∨ k = .identifier) (hle : ∀ i, n ≤ n' i) :
    TakesExpr n n' k (factor n) fun i => factor (n' i) := by
  refine (Takes.fueled (x := fun fuel (_ : Unit) => factor fuel)
    (y := fun fuel _ (_ : Unit) => factor fuel) ?_ (fun _ m _ _ => fills_factorWith hk _ _ _ _)
    (fun m m' hm _ _ ih _ => ?_) hle (Nat.le_refl _) (fun _ => Nat.le_refl _) ()).reindex
    fun i => (i, ())
  · obtain rfl | rfl := hk <;> decide
  · have hm' : ∀ p : ι × Unit, m ≤ m' p.1 := fun p => hm p.1
    exact reads_factorWith (takes_comparison (ih ()) hm') (takes_sum (ih ()) hm') (ih ()) hm'

theorem takes_sumExpr (hk : k = .integer ∨ k = .identifier) (hle : ∀ i, n ≤ n' i) :
    TakesExpr n n' k (sumExpr n) fun i => sumExpr (n' i) :=
  takes_sum (takes_factor hk hle) hle

theorem takes_expression (hk : k = .integer ∨ k = .identifier) (hle : ∀ i, n ≤ n' i) :
    TakesExpr n n' k (expression n) fun i => expression (n' i) :=
  takes_comparison (takes_factor hk hle) hle

end Kotoba.Syntax
