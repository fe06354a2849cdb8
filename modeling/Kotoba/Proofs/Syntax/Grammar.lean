import Kotoba.Proofs.Token.Spell
import Kotoba.Syntax.Statement

/-! The grammar, as a relation between tokens and the trees they stand for. -/
namespace Kotoba.Syntax

open Token (Lexeme)

/-- The first of some lexemes, the end of input if there is none. -/
def front : List Lexeme → Lexeme
  | [] => .endOfInput
  | l :: _ => l

theorem kind_front_said (ls : List Lexeme) :
    (front (ls.map Lexeme.said)).kind = (front ls).kind := by
  cases ls with
  | nil => rfl
  | cons l ls => exact l.kind_said

/-- The ways in which readings of the grammar differ. -/
structure Dialect where
  /-- To open a file or to split a text takes two arguments, not any number of them. -/
  paired : Bool
  /-- A comma may stand after the last element of an array, or after the file that is read. -/
  trailing : Bool
  /-- What directly follows a return without a value must not look like one. -/
  separated : Bool

/-- The parts of which a program is made. -/
inductive Category where
  | factor
  | product
  | sum
  | expr
  /-- What is evaluated for its effect and may also stand in an expression. -/
  | action
  | items
  | arguments
  | elements
  | statement
  | statements
  | body (conditional : Bool)
  | block (conditional : Bool)
  | orWhens
  | otherwise
  /-- A body in braces, or a single statement. -/
  | main
  | names
  | parameters
  | definition
  | definitions
  | program

/-- The trees that the parts of a category stand for. -/
@[reducible] def Category.Tree : Category → Type
  | factor | product | sum | expr | action => Expr
  | items | arguments | elements => List Expr
  | statement => Stmt
  | statements => List Stmt
  | body _ | block _ | main => Body
  | orWhens => List OrWhen
  | otherwise => Option Otherwise
  | names | parameters => List Ident
  | definition => FuncDef
  | definitions => List FuncDef
  | program => Program

theorem exists_mark_of_multiplicativeOp {k : Token.Kind} {op : Op}
    (h : multiplicativeOp? k = some op) : ∃ m, k = .mark m := by
  unfold multiplicativeOp? at h
  split at h <;> first | exact ⟨_, rfl⟩ | cases h

theorem exists_mark_of_additiveOp {k : Token.Kind} {op : Op} (h : additiveOp? k = some op) :
    ∃ m, k = .mark m := by
  unfold additiveOp? at h
  split at h <;> first | exact ⟨_, rfl⟩ | cases h

theorem exists_mark_of_relationalOp {k : Token.Kind} {op : Op} (h : relationalOp? k = some op) :
    ∃ m, k = .mark m := by
  unfold relationalOp? at h
  split at h <;> first | exact ⟨_, rfl⟩ | cases h

/-- The operator a mark stands for before a factor. -/
def unaryOp? : Mark → Option Op
  | .not => some .not
  | .minus => some .sub
  | _ => none

/-- The operator a mark stands for after a name. -/
def advanceOp? : Mark → Option Op
  | .increment => some .inc
  | .decrement => some .dec
  | _ => none

/-- The jump a mark stands for. -/
def jump? : Mark → Option (Span → Stmt)
  | .leave => some .leave
  | .proceed => some .proceed
  | _ => none

/-- What stands between the parentheses of an input. -/
def promptLexemes : Option Prompt → List Lexeme
  | none => []
  | some prompt => [.string prompt.text]

/-- A semicolon, or nothing. -/
def semicolon? (present : Bool) : List Lexeme := if present then [.of .semicolon] else []

/-- The words of the statements that print, with and without a new line. -/
def printMark (newline : Bool) : Mark := if newline then .printLine else .print

/-- The words of the statements that write to a file, with and without a new line. -/
def writeMark (newline : Bool) : Mark := if newline then .writeLine else .writeFile

/-- A name bound to a file. Only two arguments stand for one. -/
def openTree (target : Ident) (arguments : List Expr) (span : Span) : Stmt :=
  match arguments with
  | [path, mode] => .openFile target path mode span
  | _ => .collect target arguments span

/-- A name bound to the pieces of a text. Only two arguments stand for them. -/
def splitTree (target : Ident) (arguments : List Expr) (span : Span) : Stmt :=
  match arguments with
  | [source, separator] => .split target source separator span
  | _ => .collect target arguments span

/-- What comes after a return without a value does not look like a value, unless it is an
assignment. -/
def Separated (statement rest : List Lexeme) : Prop :=
  statement = [.of .giveBack] → startsExpression (front rest).kind = false ∨
    ∃ x more, rest = .identifier x :: .of .assign :: more

/-- The integers among some tokens are not too great. -/
def Fits (ls : List Lexeme) : Prop := ∀ value, .integer value ∈ ls → value ≤ Token.maxInteger

@[simp] theorem fits_nil : Fits [] := by
  rintro value ⟨⟩

@[simp] theorem fits_append {ls more : List Lexeme} : Fits (ls ++ more) ↔ Fits ls ∧ Fits more := by
  simp [Fits, or_imp, forall_and]

@[simp] theorem fits_cons_mark {m : Mark} {spelling : String} {ls : List Lexeme} :
    Fits (.mark m spelling :: ls) ↔ Fits ls := by
  simp [Fits]

@[simp] theorem fits_cons_identifier {name : String} {ls : List Lexeme} :
    Fits (.identifier name :: ls) ↔ Fits ls := by
  simp [Fits]

/-- The tokens of a category and the tree they stand for. Trees may have any spans. -/
inductive Derives (d : Dialect) : (c : Category) → List Lexeme → c.Tree → Prop
  -- factors
  | int (value : Nat) (span : Span) :
    Derives d .factor [.integer value] (Expr.int (Int64.ofNat value) span)
  | float (value : Float) (span : Span) : Derives d .factor [.float value] (Expr.float value span)
  | string (text : String) (span : Span) :
    Derives d .factor [.string text] (Expr.string text span)
  | yes (span : Span) : Derives d .factor [.of .yes] (Expr.bool true span)
  | no (span : Span) : Derives d .factor [.of .no] (Expr.bool false span)
  | name (ident : Ident) : Derives d .factor [.identifier ident.name] (Expr.name ident)
  | group {ts : List Lexeme} {e : Expr} (span : Span) (inner : Derives d .expr ts e) :
    Derives d .factor (.of .openParen :: (ts ++ [.of .closeParen])) (Expr.group e span)
  | unary {m : Mark} {op : Op} {ts : List Lexeme} {e : Expr} (opSpan span : Span)
    (mark : unaryOp? m = some op) (operand : Derives d .factor ts e) :
    Derives d .factor (.of m :: ts) (Expr.unary ⟨op, opSpan⟩ e span)
  | element {ts : List Lexeme} {e : Expr} (array : Ident) (span : Span)
    (index : Derives d .sum ts e) :
    Derives d .factor (.identifier array.name :: .of .openBracket :: (ts ++ [.of .closeBracket]))
      (Expr.element array e span)
  | charOf {ts : List Lexeme} {e : Expr} (span : Span) (code : Derives d .expr ts e) :
    Derives d .factor (.of .asChar :: .of .openParen :: (ts ++ [.of .closeParen]))
      (Expr.charOf e span)
  | codeOf {ts : List Lexeme} {e : Expr} (span : Span) (char : Derives d .expr ts e) :
    Derives d .factor (.of .asInt :: .of .openParen :: (ts ++ [.of .closeParen]))
      (Expr.codeOf e span)
  | length {ts : List Lexeme} {e : Expr} (span : Span) (value : Derives d .expr ts e) :
    Derives d .factor (.of .length :: .of .openParen :: (ts ++ [.of .closeParen]))
      (Expr.length e span)
  | atEnd (file : Ident) (span : Span) :
    Derives d .factor [.of .endOfFile, .of .openParen, .identifier file.name, .of .closeParen]
      (Expr.atEnd file span)
  | action {ts : List Lexeme} {e : Expr} (inner : Derives d .action ts e) : Derives d .factor ts e
  -- what may be a factor or a statement
  | call {ts : List Lexeme} {es : List Expr} (callee : Ident) (span : Span)
    (arguments : Derives d .arguments ts es) :
    Derives d .action (.identifier callee.name :: ts) (Expr.call callee es span)
  | input (prompt : Option Prompt) (span : Span) :
    Derives d .action (.of .input :: .of .openParen :: (promptLexemes prompt ++ [.of .closeParen]))
      (Expr.input prompt span)
  | readAll (file : Ident) (span : Span) :
    Derives d .action [.of .readFile, .of .openParen, .identifier file.name, .of .closeParen]
      (Expr.read file none span)
  | readSome {ts : List Lexeme} {e : Expr} (file : Ident) (span : Span)
    (count : Derives d .expr ts e) :
    Derives d .action (.of .readFile :: .of .openParen :: .identifier file.name :: .of .comma ::
      (ts ++ [.of .closeParen])) (Expr.read file (some e) span)
  | readComma (trailing : d.trailing) (file : Ident) (span : Span) :
    Derives d .action [.of .readFile, .of .openParen, .identifier file.name, .of .comma,
      .of .closeParen] (Expr.read file none span)
  | readLine (file : Ident) (span : Span) :
    Derives d .action [.of .readLine, .of .openParen, .identifier file.name, .of .closeParen]
      (Expr.readLine file span)
  -- layers of operators
  | ofFactor {ts : List Lexeme} {e : Expr} (inner : Derives d .factor ts e) :
    Derives d .product ts e
  | multiply {m : Mark} {op : Op} {ts us : List Lexeme} {l r : Expr} (opSpan span : Span)
    (left : Derives d .product ts l) (mark : multiplicativeOp? (.mark m) = some op)
    (right : Derives d .factor us r) :
    Derives d .product (ts ++ .of m :: us) (Expr.binary .multiplicative l ⟨op, opSpan⟩ r span)
  | ofProduct {ts : List Lexeme} {e : Expr} (inner : Derives d .product ts e) :
    Derives d .sum ts e
  | add {m : Mark} {op : Op} {ts us : List Lexeme} {l r : Expr} (opSpan span : Span)
    (left : Derives d .sum ts l) (mark : additiveOp? (.mark m) = some op)
    (right : Derives d .product us r) :
    Derives d .sum (ts ++ .of m :: us) (Expr.binary .additive l ⟨op, opSpan⟩ r span)
  | ofSum {ts : List Lexeme} {e : Expr} (inner : Derives d .sum ts e) : Derives d .expr ts e
  | compare {m : Mark} {op : Op} {ts us : List Lexeme} {l r : Expr} (opSpan span : Span)
    (left : Derives d .sum ts l) (mark : relationalOp? (.mark m) = some op)
    (right : Derives d .sum us r) :
    Derives d .expr (ts ++ .of m :: us) (Expr.binary .relational l ⟨op, opSpan⟩ r span)
  -- lists of expressions
  | oneItem {ts : List Lexeme} {e : Expr} (item : Derives d .expr ts e) : Derives d .items ts [e]
  | moreItems {ts us : List Lexeme} {e : Expr} {es : List Expr} (first : Derives d .expr ts e)
    (rest : Derives d .items us es) : Derives d .items (ts ++ .of .comma :: us) (e :: es)
  | noArguments : Derives d .arguments [.of .openParen, .of .closeParen] []
  | arguments {ts : List Lexeme} {es : List Expr} (items : Derives d .items ts es) :
    Derives d .arguments (.of .openParen :: (ts ++ [.of .closeParen])) es
  | noElements : Derives d .elements [] []
  | elements {ts : List Lexeme} {es : List Expr} (items : Derives d .items ts es) :
    Derives d .elements ts es
  | elementsComma {ts : List Lexeme} {es : List Expr} (trailing : d.trailing)
    (items : Derives d .items ts es) : Derives d .elements (ts ++ [.of .comma]) es
  -- statements
  | giveBackNone (span : Span) : Derives d .statement [.of .giveBack] (Stmt.giveBack none span)
  | giveBack {ts : List Lexeme} {e : Expr} (span : Span) (value : Derives d .expr ts e) :
    Derives d .statement (.of .giveBack :: ts) (Stmt.giveBack (some e) span)
  | assign {ts : List Lexeme} {e : Expr} (target : Ident) (span : Span)
    (value : Derives d .expr ts e) :
    Derives d .statement (.identifier target.name :: .of .assign :: ts) (Stmt.assign target e span)
  | advance {m : Mark} {op : Op} (target : Ident) (opSpan span : Span)
    (mark : advanceOp? m = some op) :
    Derives d .statement [.identifier target.name, .of m] (Stmt.advance target ⟨op, opSpan⟩ span)
  | act {ts : List Lexeme} {e : Expr} (action : Derives d .action ts e) :
    Derives d .statement ts (Stmt.expr e)
  | allocate {ts : List Lexeme} {e : Expr} (target : Ident) (span : Span)
    (size : Derives d .sum ts e) :
    Derives d .statement (.identifier target.name :: .of .arrow :: .of .openBracket ::
      (ts ++ [.of .closeBracket])) (Stmt.allocate target e span)
  | collect {ts : List Lexeme} {es : List Expr} (target : Ident) (span : Span)
    (elements : Derives d .elements ts es) :
    Derives d .statement (.identifier target.name :: .of .arrow :: .of .openBrace ::
      (ts ++ [.of .closeBrace])) (Stmt.collect target es span)
  | openFile {ts : List Lexeme} {es : List Expr} (target : Ident) (span : Span)
    (arguments : Derives d .arguments ts es) (two : d.paired → es.length = 2) :
    Derives d .statement (.identifier target.name :: .of .arrow :: .of .openFile :: ts)
      (openTree target es span)
  | split {ts : List Lexeme} {es : List Expr} (target : Ident) (span : Span)
    (arguments : Derives d .arguments ts es) (two : d.paired → es.length = 2) :
    Derives d .statement (.identifier target.name :: .of .arrow :: .of .split :: ts)
      (splitTree target es span)
  | update {ts us : List Lexeme} {i e : Expr} (array : Ident) (slot span : Span)
    (index : Derives d .sum ts i) (value : Derives d .expr us e) :
    Derives d .statement (.identifier array.name :: .of .openBracket ::
      (ts ++ .of .closeBracket :: .of .assign :: us)) (Stmt.update array i slot e span)
  | loop {ts us : List Lexeme} {e : Expr} {b : Body} (span : Span)
    (condition : Derives d .expr ts e) (body : Derives d (.block true) us b) :
    Derives d .statement (.of .loop :: .of .openParen :: (ts ++ .of .closeParen :: us))
      (Stmt.loop e b span)
  | range {ts us vs : List Lexeme} {e f : Expr} {b : Body} (counter : Ident) (span : Span)
    (first : Derives d .expr ts e) (last : Derives d .expr us f)
    (body : Derives d (.block true) vs b) :
    Derives d .statement (.of .range :: .identifier counter.name :: .of .arrow :: .of .openParen ::
      (ts ++ .of .comma :: (us ++ .of .closeParen :: vs))) (Stmt.range counter e f b span)
  | when {ts us vs ws : List Lexeme} {e : Expr} {b : Body} {others : List OrWhen}
    {last : Option Otherwise} (span : Span) (condition : Derives d .expr ts e)
    (body : Derives d (.block true) us b) (more : Derives d .orWhens vs others)
    (rest : Derives d .otherwise ws last) :
    Derives d .statement (.of .when :: .of .openParen ::
      (ts ++ .of .closeParen :: (us ++ (vs ++ ws)))) (Stmt.when e b others last span)
  | print {ts : List Lexeme} {es : List Expr} (newline : Bool) (span : Span)
    (arguments : Derives d .arguments ts es) :
    Derives d .statement (.of (printMark newline) :: ts) (Stmt.print es newline span)
  | closeFile (file : Ident) (span : Span) :
    Derives d .statement [.of .closeFile, .of .openParen, .identifier file.name, .of .closeParen]
      (Stmt.closeFile file span)
  | write {ts : List Lexeme} {e : Expr} (file : Ident) (newline : Bool) (span : Span)
    (value : Derives d .expr ts e) :
    Derives d .statement (.of (writeMark newline) :: .of .openParen :: .identifier file.name ::
      .of .comma :: (ts ++ [.of .closeParen])) (Stmt.write file e newline span)
  -- the parts of a conditional
  | noOrWhens : Derives d .orWhens [] []
  | orWhens {ts us vs : List Lexeme} {e : Expr} {b : Body} {others : List OrWhen} (span : Span)
    (condition : Derives d .expr ts e) (body : Derives d (.block true) us b)
    (rest : Derives d .orWhens vs others) :
    Derives d .orWhens (.of .orWhen :: .of .openParen :: (ts ++ .of .closeParen :: (us ++ vs)))
      (⟨e, b, span⟩ :: others)
  | noOtherwise : Derives d .otherwise [] none
  | otherwise {ts : List Lexeme} {b : Body} (span : Span) (body : Derives d (.block true) ts b) :
    Derives d .otherwise (.of .otherwise :: ts) (some ⟨b, span⟩)
  -- lists of statements
  | noStatements : Derives d .statements [] []
  | statements {ts us : List Lexeme} {s : Stmt} {ss : List Stmt} (semicolon : Bool)
    (first : Derives d .statement ts s) (rest : Derives d .statements us ss)
    (separated : d.separated → Separated ts (semicolon? semicolon ++ us)) :
    Derives d .statements (ts ++ (semicolon? semicolon ++ us)) (s :: ss)
  | body {ts : List Lexeme} {ss : List Stmt} (conditional : Bool) (span : Span)
    (statements : Derives d .statements ts ss) :
    Derives d (.body conditional) ts (⟨ss, span⟩ : Body)
  | bodyJump {ts : List Lexeme} {ss : List Stmt} {m : Mark} {jump : Span → Stmt}
    (jumpSpan span : Span) (semicolon : Bool) (statements : Derives d .statements ts ss)
    (mark : jump? m = some jump) :
    Derives d (.body true) (ts ++ .of m :: semicolon? semicolon)
      (⟨ss ++ [jump jumpSpan], span⟩ : Body)
  | block {ts : List Lexeme} {b : Body} {conditional : Bool}
    (body : Derives d (.body conditional) ts b) :
    Derives d (.block conditional) (.of .openBrace :: (ts ++ [.of .closeBrace])) b
  | braced {ts : List Lexeme} {b : Body} (block : Derives d (.block false) ts b) :
    Derives d .main ts b
  | single {ts : List Lexeme} {s : Stmt} (span : Span) (statement : Derives d .statement ts s) :
    Derives d .main (ts ++ [.of .semicolon]) (⟨[s], span⟩ : Body)
  -- definitions and programs
  | oneName (ident : Ident) : Derives d .names [.identifier ident.name] [ident]
  | moreNames {ts : List Lexeme} {idents : List Ident} (ident : Ident)
    (rest : Derives d .names ts idents) :
    Derives d .names (.identifier ident.name :: .of .comma :: ts) (ident :: idents)
  | noParameters : Derives d .parameters [] []
  | emptyParameters : Derives d .parameters [.of .openParen, .of .closeParen] []
  | parameters {ts : List Lexeme} {idents : List Ident} (names : Derives d .names ts idents) :
    Derives d .parameters (.of .openParen :: (ts ++ [.of .closeParen])) idents
  | definition {ts us : List Lexeme} {params : List Ident} {b : Body} (ident : Ident) (span : Span)
    (parameters : Derives d .parameters ts params) (body : Derives d .main us b) :
    Derives d .definition (.of .define :: .identifier ident.name :: (ts ++ .of .arrow :: us))
      (⟨ident, params, b, span⟩ : FuncDef)
  | noDefinitions : Derives d .definitions [] []
  | definitions {ts us : List Lexeme} {f : FuncDef} {fs : List FuncDef}
    (first : Derives d .definition ts f) (rest : Derives d .definitions us fs) :
    Derives d .definitions (ts ++ us) (f :: fs)
  | noProgram (span : Span) : Derives d .program [] (⟨[], none, span⟩ : Program)
  | program {ts us : List Lexeme} {fs : List FuncDef} {b : Body} (span : Span)
    (functions : Derives d .definitions ts fs) (body : Derives d .main us b) :
    Derives d .program (ts ++ .of .main :: .of .openParen :: .of .closeParen :: .of .arrow :: us)
      (⟨fs, b, span⟩ : Program)

end Kotoba.Syntax
