import Kotoba.Proofs.Syntax.Parsed

/-! Trees written down. Every tree that is parsed has a text of its own, in which each body stands
in braces and each statement has its semicolon; that text is parsed as the same tree. -/
namespace Kotoba

open Token (Lexeme)

/-- The sign of an operator. -/
def Op.sign : Op → Mark
  | add => .plus
  | sub => .minus
  | mul => .times
  | div => .divide
  | mod => .modulo
  | and => .and
  | or => .or
  | not => .not
  | eq => .equal
  | ne => .notEqual
  | lt => .less
  | le => .lessEqual
  | gt => .greater
  | ge => .greaterEqual
  | inc => .increment
  | dec => .decrement
  | other _ => .colons

def Ident.lexeme (ident : Ident) : Lexeme := .identifier ident.name

/-- Lexemes in parentheses. -/
def inParens (ls : List Lexeme) : List Lexeme := .of .openParen :: (ls ++ [.of .closeParen])

mutual

/-- The tokens of an expression. -/
def Expr.lexemes : Expr → List Lexeme
  | .int value _ => [.integer value.toNatClampNeg]
  | .float value _ => [.float value]
  | .string text _ => [.string text]
  | .bool true _ => [.of .yes]
  | .bool false _ => [.of .no]
  | .name ident => [ident.lexeme]
  | .group inner _ => inParens inner.lexemes
  | .unary op operand _ => .of op.op.sign :: operand.lexemes
  | .binary _ left op right _ => left.lexemes ++ .of op.op.sign :: right.lexemes
  | .single _ inner _ => inner.lexemes
  | .call callee arguments _ => callee.lexeme :: inParens (Expr.lexemesAll arguments)
  | .input prompt _ => .of .input :: inParens (Syntax.promptLexemes prompt)
  | .element array index _ =>
    array.lexeme :: .of .openBracket :: (index.lexemes ++ [.of .closeBracket])
  | .charOf code _ => .of .asChar :: inParens code.lexemes
  | .codeOf char _ => .of .asInt :: inParens char.lexemes
  | .length value _ => .of .length :: inParens value.lexemes
  | .read file none _ => .of .readFile :: inParens [file.lexeme]
  | .read file (some count) _ =>
    .of .readFile :: inParens (file.lexeme :: .of .comma :: count.lexemes)
  | .readLine file _ => .of .readLine :: inParens [file.lexeme]
  | .atEnd file _ => .of .endOfFile :: inParens [file.lexeme]
termination_by structural e => e

/-- The tokens of expressions, with commas between them. -/
def Expr.lexemesAll : List Expr → List Lexeme
  | [] => []
  | e :: rest => e.lexemes ++ Expr.lexemesAfter rest
termination_by structural es => es

def Expr.lexemesAfter : List Expr → List Lexeme
  | [] => []
  | e :: rest => .of .comma :: (e.lexemes ++ Expr.lexemesAfter rest)
termination_by structural es => es

end

mutual

/-- The tokens of a statement, without its semicolon. -/
def Stmt.lexemes : Stmt → List Lexeme
  | .giveBack none _ => [.of .giveBack]
  | .giveBack (some value) _ => .of .giveBack :: value.lexemes
  | .leave _ => [.of .leave]
  | .proceed _ => [.of .proceed]
  | .when condition body others otherwise _ =>
    .of .when :: (inParens condition.lexemes ++ (Body.lexemes? body ++
      (OrWhen.lexemesAll others ++ Otherwise.lexemes? otherwise)))
  | .loop condition body _ => .of .loop :: (inParens condition.lexemes ++ Body.lexemes? body)
  | .range counter first last body _ =>
    .of .range :: counter.lexeme :: .of .arrow ::
      (inParens (first.lexemes ++ .of .comma :: last.lexemes) ++ Body.lexemes? body)
  | .assign target value _ => target.lexeme :: .of .assign :: value.lexemes
  | .advance target op _ => [target.lexeme, .of op.op.sign]
  | .print arguments newline _ =>
    .of (Syntax.printMark newline) :: inParens (Expr.lexemesAll arguments)
  | .openFile target path mode _ =>
    target.lexeme :: .of .arrow :: .of .openFile ::
      inParens (path.lexemes ++ .of .comma :: mode.lexemes)
  | .closeFile file _ => .of .closeFile :: inParens [file.lexeme]
  | .write file value newline _ =>
    .of (Syntax.writeMark newline) :: inParens (file.lexeme :: .of .comma :: value.lexemes)
  | .allocate target size _ =>
    target.lexeme :: .of .arrow :: .of .openBracket :: (size.lexemes ++ [.of .closeBracket])
  | .collect target elements _ =>
    target.lexeme :: .of .arrow :: .of .openBrace ::
      (Expr.lexemesAll elements ++ [.of .closeBrace])
  | .update array index _ value _ =>
    array.lexeme :: .of .openBracket ::
      (index.lexemes ++ .of .closeBracket :: .of .assign :: value.lexemes)
  | .split target source separator _ =>
    target.lexeme :: .of .arrow :: .of .split ::
      inParens (source.lexemes ++ .of .comma :: separator.lexemes)
  | .expr value => value.lexemes
termination_by structural s => s

/-- The tokens of statements, with a semicolon after each. -/
def Stmt.lexemesAll : List Stmt → List Lexeme
  | [] => []
  | s :: rest => s.lexemes ++ .of .semicolon :: Stmt.lexemesAll rest
termination_by structural ss => ss

/-- The tokens of a body, in braces. -/
def Body.lexemes : Body → List Lexeme
  | ⟨statements, _⟩ => .of .openBrace :: (Stmt.lexemesAll statements ++ [.of .closeBrace])
termination_by structural b => b

def Body.lexemes? : Option Body → List Lexeme
  | some body => body.lexemes
  | none => []
termination_by structural b => b

def OrWhen.lexemesAll : List OrWhen → List Lexeme
  | [] => []
  | ⟨condition, body, _⟩ :: rest =>
    .of .orWhen :: (inParens condition.lexemes ++ (Body.lexemes? body ++ OrWhen.lexemesAll rest))
termination_by structural branches => branches

def Otherwise.lexemes? : Option Otherwise → List Lexeme
  | some ⟨body, _⟩ => .of .otherwise :: Body.lexemes? body
  | none => []
termination_by structural branch => branch

end

/-- The tokens of names, with commas between them. -/
def Ident.lexemesAll : List Ident → List Lexeme
  | [] => []
  | [ident] => [ident.lexeme]
  | ident :: rest => ident.lexeme :: .of .comma :: Ident.lexemesAll rest

/-- The tokens of a definition, with parentheses even if there are no parameters. -/
def FuncDef.lexemes (f : FuncDef) : List Lexeme :=
  .of .define :: f.name.lexeme ::
    (inParens (Ident.lexemesAll f.params) ++ .of .arrow :: Body.lexemes? f.body)

/-- The tokens of a program. -/
def Program.lexemes (p : Program) : List Lexeme :=
  match p.body with
  | none => []
  | some body => p.functions.flatMap FuncDef.lexemes ++
      .of .main :: .of .openParen :: .of .closeParen :: .of .arrow :: body.lexemes

/-- A program in canonical form: its tokens with spaces between them. -/
def Program.canonical (p : Program) : Bytes :=
  Bytes.ofString (String.ofList (Token.written p.lexemes))

namespace Syntax

/-- The tokens of a tree. -/
def Category.lexemes : (c : Category) → c.Tree → List Lexeme
  | .factor, e | .product, e | .sum, e | .expr, e | .action, e => Expr.lexemes e
  | .items, es | .elements, es => Expr.lexemesAll es
  | .arguments, es => inParens (Expr.lexemesAll es)
  | .statement, s => Stmt.lexemes s
  | .statements, ss => Stmt.lexemesAll ss
  | .body _, b => Stmt.lexemesAll b.statements
  | .block _, b | .main, b => Body.lexemes b
  | .orWhens, others => OrWhen.lexemesAll others
  | .otherwise, last => Otherwise.lexemes? last
  | .names, idents => Ident.lexemesAll idents
  | .parameters, idents => inParens (Ident.lexemesAll idents)
  | .definition, f => FuncDef.lexemes f
  | .definitions, fs => List.flatMap FuncDef.lexemes fs
  | .program, p => Program.lexemes p

section Signs

variable {m : Mark} {op : Op}

theorem sign_of_unaryOp (h : unaryOp? m = some op) : op.sign = m := by
  unfold unaryOp? at h
  split at h <;> cases h <;> rfl

theorem sign_of_advanceOp (h : advanceOp? m = some op) : op.sign = m := by
  unfold advanceOp? at h
  split at h <;> cases h <;> rfl

theorem sign_of_multiplicativeOp (h : multiplicativeOp? (.mark m) = some op) : op.sign = m := by
  cases m <;> cases h <;> rfl

theorem sign_of_additiveOp (h : additiveOp? (.mark m) = some op) : op.sign = m := by
  cases m <;> cases h <;> rfl

theorem sign_of_relationalOp (h : relationalOp? (.mark m) = some op) : op.sign = m := by
  cases m <;> cases h <;> rfl

end Signs

theorem toNatClampNeg_ofNat {value : Nat} (h : value ≤ Token.maxInteger) :
    (Int64.ofNat value).toNatClampNeg = value :=
  Int64.toNatClampNeg_ofNat_of_lt (Nat.lt_succ_of_le h)

theorem lexemesAll_cons {e : Expr} {es : List Expr} (h : es ≠ []) :
    Expr.lexemesAll (e :: es) = e.lexemes ++ .of .comma :: Expr.lexemesAll es := by
  cases es with
  | nil => exact absurd rfl h
  | cons f es => rfl

theorem identLexemesAll_cons {ident : Ident} {idents : List Ident} (h : idents ≠ []) :
    Ident.lexemesAll (ident :: idents) =
      .identifier ident.name :: .of .comma :: Ident.lexemesAll idents := by
  cases idents with
  | nil => exact absurd rfl h
  | cons ident' idents => rfl

theorem stmtLexemesAll_append (ss rest : List Stmt) :
    Stmt.lexemesAll (ss ++ rest) = Stmt.lexemesAll ss ++ Stmt.lexemesAll rest := by
  induction ss with
  | nil => rfl
  | cons s ss ih => simp [Stmt.lexemesAll, ih]

theorem bodyLexemes_eq (b : Body) :
    b.lexemes = .of .openBrace :: (Stmt.lexemesAll b.statements ++ [.of .closeBrace]) := by
  cases b
  rfl

theorem Derives.items_ne_nil {d : Dialect} {ts : List Lexeme} {es : List Expr}
    (h : Derives d .items ts es) : es ≠ [] := by
  cases h <;> simp

theorem Derives.names_ne_nil {d : Dialect} {ts : List Lexeme} {idents : List Ident}
    (h : Derives d .names ts idents) : idents ≠ [] := by
  cases h <;> simp

/-- The tokens of a tree that was derived stand for it. -/
theorem derives_lexemes {c : Category} {ts : List Lexeme} {t : c.Tree} (h : Derives .loose c ts t)
    (hts : Fits ts) : Derives .strict c (c.lexemes t) t := by
  induction h with
  | int value span =>
    simp only [Category.lexemes, Expr.lexemes, toNatClampNeg_ofNat (hts value (by simp))]
    exact .int value span
  | float value span => exact .float value span
  | string text span => exact .string text span
  | yes span => exact .yes span
  | no span => exact .no span
  | name ident => exact .name ident
  | group span _ ih => exact .group span (ih (by simpa using hts))
  | unary opSpan span hm _ ih =>
    simp only [Category.lexemes, Expr.lexemes, sign_of_unaryOp hm]
    exact .unary opSpan span hm (ih (by simpa using hts))
  | element array span _ ih => exact .element array span (ih (by simpa using hts))
  | charOf span _ ih => exact .charOf span (ih (by simpa using hts))
  | codeOf span _ ih => exact .codeOf span (ih (by simpa using hts))
  | length span _ ih => exact .length span (ih (by simpa using hts))
  | atEnd file span => exact .atEnd file span
  | action _ ih => exact .action (ih hts)
  | call callee span _ ih => exact .call callee span (ih (by simpa using hts))
  | input prompt span => exact .input prompt span
  | readAll file span | readComma _ file span => exact .readAll file span
  | readSome file span _ ih => exact .readSome file span (ih (by simpa using hts))
  | readLine file span => exact .readLine file span
  | ofFactor _ ih => exact .ofFactor (ih hts)
  | multiply opSpan span _ hm _ ihl ihr =>
    simp only [fits_append, fits_cons_mark] at hts
    simp only [Category.lexemes, Expr.lexemes, sign_of_multiplicativeOp hm]
    exact .multiply opSpan span (ihl hts.1) hm (ihr hts.2)
  | ofProduct _ ih => exact .ofProduct (ih hts)
  | add opSpan span _ hm _ ihl ihr =>
    simp only [fits_append, fits_cons_mark] at hts
    simp only [Category.lexemes, Expr.lexemes, sign_of_additiveOp hm]
    exact .add opSpan span (ihl hts.1) hm (ihr hts.2)
  | ofSum _ ih => exact .ofSum (ih hts)
  | compare opSpan span _ hm _ ihl ihr =>
    simp only [fits_append, fits_cons_mark] at hts
    simp only [Category.lexemes, Expr.lexemes, sign_of_relationalOp hm]
    exact .compare opSpan span (ihl hts.1) hm (ihr hts.2)
  | oneItem _ ih => simpa [Category.lexemes, Expr.lexemesAll, Expr.lexemesAfter] using
      Derives.oneItem (ih hts)
  | moreItems _ h ih ihs =>
    simp only [fits_append, fits_cons_mark] at hts
    simp only [Category.lexemes, lexemesAll_cons h.items_ne_nil]
    exact .moreItems (ih hts.1) (ihs hts.2)
  | noArguments => exact .noArguments
  | arguments _ ih => exact .arguments (ih (by simpa using hts))
  | noElements => exact .noElements
  | elements _ ih => exact .elements (ih hts)
  | elementsComma _ _ ih => exact .elements (ih (by simpa using hts))
  | giveBackNone span => exact .giveBackNone span
  | giveBack span _ ih => exact .giveBack span (ih (by simpa using hts))
  | assign target span _ ih => exact .assign target span (ih (by simpa using hts))
  | advance target opSpan span hm =>
    simp only [Category.lexemes, Stmt.lexemes, sign_of_advanceOp hm]
    exact .advance target opSpan span hm
  | act _ ih => exact .act (ih hts)
  | allocate target span _ ih => exact .allocate target span (ih (by simpa using hts))
  | collect target span _ ih => exact .collect target span (ih (by simpa using hts))
  | openFile target span _ htwo ih =>
    have harguments := ih (by simpa using hts)
    obtain ⟨a, b, rfl⟩ := List.length_eq_two.mp (htwo rfl)
    have hopen := Derives.openFile target span harguments fun _ => rfl
    simpa [Category.lexemes, openTree, Stmt.lexemes, Expr.lexemesAll, Expr.lexemesAfter,
      Ident.lexeme] using hopen
  | split target span _ htwo ih =>
    have harguments := ih (by simpa using hts)
    obtain ⟨a, b, rfl⟩ := List.length_eq_two.mp (htwo rfl)
    have hsplit := Derives.split target span harguments fun _ => rfl
    simpa [Category.lexemes, splitTree, Stmt.lexemes, Expr.lexemesAll, Expr.lexemesAfter,
      Ident.lexeme] using hsplit
  | update array slot span _ _ ihi ihv =>
    simp only [fits_append, fits_cons_mark, fits_cons_identifier] at hts
    exact .update array slot span (ihi hts.1) (ihv hts.2)
  | loop span _ _ ih ihb =>
    simp only [fits_append, fits_cons_mark] at hts
    simpa [Category.lexemes, Stmt.lexemes, Body.lexemes?, inParens] using
      Derives.loop span (ih hts.1) (ihb hts.2)
  | range counter span _ _ _ ihf ihl ihb =>
    simp only [fits_append, fits_cons_mark, fits_cons_identifier] at hts
    simpa [Category.lexemes, Stmt.lexemes, Body.lexemes?, inParens, Ident.lexeme] using
      Derives.range counter span (ihf hts.1) (ihl hts.2.1) (ihb hts.2.2)
  | when span _ _ _ _ ih ihb iho ihl =>
    simp only [fits_append, fits_cons_mark] at hts
    obtain ⟨h, hb, ho, hl⟩ := hts
    simpa [Category.lexemes, Stmt.lexemes, Body.lexemes?, inParens] using
      Derives.when span (ih h) (ihb hb) (iho ho) (ihl hl)
  | print newline span _ ih => exact .print newline span (ih (by simpa using hts))
  | closeFile file span => exact .closeFile file span
  | write file newline span _ ih => exact .write file newline span (ih (by simpa using hts))
  | noOrWhens => exact .noOrWhens
  | orWhens span _ _ _ ih ihb iho =>
    simp only [fits_append, fits_cons_mark] at hts
    obtain ⟨h, hb, ho⟩ := hts
    simpa [Category.lexemes, OrWhen.lexemesAll, Body.lexemes?, inParens] using
      Derives.orWhens span (ih h) (ihb hb) (iho ho)
  | noOtherwise => exact .noOtherwise
  | otherwise span _ ih => exact .otherwise span (ih (by simpa using hts))
  | noStatements => exact .noStatements
  | statements semicolon _ _ _ ih ihs =>
    simp only [fits_append] at hts
    exact .statements true (ih hts.1) (ihs hts.2.2) fun _ _ => .inl rfl
  | body conditional span _ ih => exact .body conditional span (ih hts)
  | bodyJump jumpSpan span semicolon _ hm ih =>
    simp only [fits_append, fits_cons_mark] at hts
    have hjump := Derives.bodyJump jumpSpan span true (ih hts.1) hm
    simp only [Category.lexemes, stmtLexemesAll_append]
    unfold jump? at hm
    split at hm <;> cases hm <;> exact hjump
  | block _ ih =>
    simp only [Category.lexemes, bodyLexemes_eq]
    exact .block (ih (by simpa using hts))
  | braced _ ih => exact .braced (ih hts)
  | single span _ ih =>
    have hstatement := ih (by simpa using hts)
    exact .braced (.block (.body false span (.statements true hstatement .noStatements
      fun _ _ => .inl rfl)))
  | oneName ident => exact .oneName ident
  | moreNames ident h ih =>
    simp only [Category.lexemes, identLexemesAll_cons h.names_ne_nil]
    exact .moreNames ident (ih (by simpa using hts))
  | noParameters | emptyParameters => exact .emptyParameters
  | parameters _ ih => exact .parameters (ih (by simpa using hts))
  | definition ident span _ _ ihp ihb =>
    simp only [fits_append, fits_cons_mark, fits_cons_identifier] at hts
    exact .definition ident span (ihp hts.1) (ihb hts.2)
  | noDefinitions => exact .noDefinitions
  | definitions _ _ ih ihs =>
    simp only [fits_append] at hts
    simpa [Category.lexemes] using Derives.definitions (ih hts.1) (ihs hts.2)
  | noProgram span => exact .noProgram span
  | program span _ _ ihf ihb =>
    simp only [fits_append, fits_cons_mark] at hts
    exact .program span (ihf hts.1) (ihb hts.2)

/-- What can be written in any case: signs, and integers that are not too great. -/
def AlwaysWritable (l : Lexeme) : Prop := l.said = l ∧ ∀ limits, l.Writable limits

theorem alwaysWritable_of {m : Mark} (hm : m ∉ Mark.words) : AlwaysWritable (.of m) :=
  ⟨rfl, fun _ => Lexeme.writable_of.mpr fun h => absurd h hm⟩

/-- The tokens of a tree are among those it was derived from, or can be written in any case. -/
theorem mem_lexemes {c : Category} {ts : List Lexeme} {t : c.Tree} (h : Derives .loose c ts t) :
    ∀ l ∈ c.lexemes t, l ∈ ts ∨ AlwaysWritable l := by
  have hsign : ∀ m ∈ [Mark.openParen, .closeParen, .openBrace, .closeBrace, .comma, .semicolon],
      AlwaysWritable (.of m) := by
    intro m hm
    apply alwaysWritable_of
    revert hm
    cases m <;> decide
  simp only [List.mem_cons, List.not_mem_nil, or_false, forall_eq_or_imp, forall_eq] at hsign
  obtain ⟨hop, hcp, hob, hcb, hcomma, hsemi⟩ := hsign
  induction h with
  | int value span =>
    rintro l (_ | ⟨_, ⟨⟩⟩)
    refine .inr ⟨rfl, fun _ => ?_⟩
    exact Nat.le_of_lt_succ (Int64.ofNat value).toNatClampNeg_lt
  | unary _ _ hm _ ih =>
    simp only [Category.lexemes, Expr.lexemes, sign_of_unaryOp hm] at ih ⊢
    grind
  | multiply _ _ _ hm _ ihl ihr =>
    simp only [Category.lexemes, Expr.lexemes, sign_of_multiplicativeOp hm] at ihl ihr ⊢
    grind
  | add _ _ _ hm _ ihl ihr =>
    simp only [Category.lexemes, Expr.lexemes, sign_of_additiveOp hm] at ihl ihr ⊢
    grind
  | compare _ _ _ hm _ ihl ihr =>
    simp only [Category.lexemes, Expr.lexemes, sign_of_relationalOp hm] at ihl ihr ⊢
    grind
  | moreItems _ h ih ihs =>
    simp only [Category.lexemes, lexemesAll_cons h.items_ne_nil] at ih ihs ⊢
    grind
  | advance _ _ _ hm =>
    simp only [Category.lexemes, Stmt.lexemes, sign_of_advanceOp hm, Ident.lexeme]
    grind
  | openFile _ _ _ htwo ih | split _ _ _ htwo ih =>
    obtain ⟨a, b, rfl⟩ := List.length_eq_two.mp (htwo rfl)
    simp only [Category.lexemes, openTree, splitTree, Stmt.lexemes, Expr.lexemesAll,
      Expr.lexemesAfter, inParens, Ident.lexeme] at ih ⊢
    grind
  | bodyJump _ _ _ _ hm ih =>
    simp only [Category.lexemes, stmtLexemesAll_append] at ih ⊢
    unfold jump? at hm
    split at hm <;> cases hm <;> simp only [Stmt.lexemesAll, Stmt.lexemes] <;> grind
  | block _ ih =>
    simp only [Category.lexemes, bodyLexemes_eq] at ih ⊢
    grind
  | moreNames _ h ih =>
    simp only [Category.lexemes, identLexemesAll_cons h.names_ne_nil] at ih ⊢
    grind
  | definitions _ _ ih ihs =>
    simp only [Category.lexemes, List.flatMap_cons] at ih ihs ⊢
    grind
  | _ =>
    simp only [Category.lexemes, Expr.lexemes, Expr.lexemesAll, Expr.lexemesAfter, Stmt.lexemes,
      Stmt.lexemesAll, Body.lexemes, Body.lexemes?, OrWhen.lexemesAll, Otherwise.lexemes?,
      Ident.lexemesAll, Ident.lexeme, FuncDef.lexemes, Program.lexemes, inParens] at *
    grind

/-- Parsing undoes printing: the canonical text of a program that was parsed from a text without
floats is parsed again, as the same program up to spans. -/
theorem parseProgram_canonical {limits : Token.Limits} {text : Bytes} {p : Program} {s : State}
    (h : parseProgram limits text = .ok p s)
    (hfloat : ∀ t ∈ (Token.tokenize limits text).tokens, t.kind ≠ .float) :
    ∃ p' s', parseProgram limits p.canonical = .ok p' s' ∧ p'.bare = p.bare := by
  have hderives := derives_of_parseProgram h
  have hwritable : ∀ l ∈ lexemesOf limits text, l.said = l ∧ l.Writable limits := by
    intro l hl
    obtain ⟨t, ht, rfl⟩ := List.mem_map.mp hl
    exact ⟨Lexeme.said_said _, Token.scanAll_writable ht (hfloat t ht)⟩
  have hlexemes : ∀ l ∈ p.lexemes, l.said = l ∧ l.Writable limits := by
    intro l hl
    obtain hl | hl := mem_lexemes hderives l hl
    · exact hwritable l hl
    · exact ⟨hl.1, hl.2 limits⟩
  obtain ⟨htokens, e, hending⟩ := Token.tokenize_written fun l hl => (hlexemes l hl).2
  have hcanonical : lexemesOf limits p.canonical = p.lexemes := by
    rw [lexemesOf, Program.canonical, htokens]
    exact (List.map_congr_left fun l hl => (hlexemes l hl).1).trans (List.map_id _)
  refine parseProgram_of_derives hending ?_
  rw [hcanonical]
  exact derives_lexemes hderives fun value hvalue => (hwritable _ hvalue).2

/-- An escape, a group and a minus before it. -/
theorem parseProgram_canonical_group :
    let text : Bytes := "uWu_nyaa() => yomu(\"a\\tb\", -(1 + 2) * 3 == x);"
    ∃ p s p' s', parseProgram {} text = .ok p s ∧ parseProgram {} p.canonical = .ok p' s' ∧
      p'.bare = p.bare := by
  intro text
  have hfloat : ∀ t ∈ (Token.tokenize {} text).tokens, t.kind ≠ .float := by decide +kernel
  obtain ⟨p, s, hparse⟩ := parses_iff.mp (show parses {} text by decide +kernel)
  obtain ⟨p', s', hagain, hbare⟩ := parseProgram_canonical hparse hfloat
  exact ⟨p, s, p', s', hparse, hagain, hbare⟩

end Syntax

end Kotoba
