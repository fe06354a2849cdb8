import Kotoba.Decimal.Layout
import Kotoba.Source.Span
import Kotoba.Text.Quoted

/-! Tokens: the words, literals and signs a program is written with. -/
namespace Kotoba

inductive Mark where
  | main
  | print
  | printLine
  | input
  | loop
  | range
  | when
  | orWhen
  | otherwise
  | leave
  | proceed
  | define
  | giveBack
  | yes
  | no
  | openFile
  | closeFile
  | readFile
  | readLine
  | writeFile
  | writeLine
  | endOfFile
  | asChar
  | asInt
  | split
  | length
  | plus
  | minus
  | times
  | divide
  | modulo
  | and
  | or
  | not
  | equal
  | notEqual
  | less
  | lessEqual
  | greater
  | greaterEqual
  | assign
  | arrow
  | increment
  | decrement
  | colons
  | comma
  | semicolon
  | openParen
  | closeParen
  | openBrace
  | closeBrace
  | openBracket
  | closeBracket
deriving DecidableEq, Repr

namespace Mark

def name : Mark → String
  | main => "uWu_nyaa"
  | print => "yomu"
  | printLine => "yomu_ln"
  | input => "ohayo"
  | loop => "daijoubu"
  | range => "for"
  | when => "nani"
  | orWhen => "nandesuka"
  | otherwise => "baka"
  | leave => "yamete"
  | proceed => "motto"
  | define => "kawaii"
  | giveBack => "modoru"
  | yes => "HAI"
  | no => "IIE"
  | openFile => "f_open"
  | closeFile => "f_close"
  | readFile => "f_read"
  | readLine => "f_readline"
  | writeFile => "f_write"
  | writeLine => "f_writeline"
  | endOfFile => "f_EOF"
  | asChar => "asChar"
  | asInt => "asInt"
  | split => "split"
  | length => "len"
  | plus => "+"
  | minus => "-"
  | times => "*"
  | divide => "/"
  | modulo => "%"
  | and => "&&"
  | or => "||"
  | not => "!"
  | equal => "=="
  | notEqual => "!="
  | less => "<"
  | lessEqual => "<="
  | greater => ">"
  | greaterEqual => ">="
  | assign => "="
  | arrow => "=>"
  | increment => "++"
  | decrement => "--"
  | colons => "::"
  | comma => ","
  | semicolon => ";"
  | openParen => "("
  | closeParen => ")"
  | openBrace => "\x7b"
  | closeBrace => "\x7d"
  | openBracket => "["
  | closeBracket => "]"

def words : List Mark := [
  main, print, printLine, input, loop, range, when, orWhen, otherwise, leave, proceed, define,
  giveBack, yes, no, openFile, closeFile, readFile, readLine, writeFile, writeLine, endOfFile,
  asChar, asInt, split, length]

def signs : List Mark := [
  plus, minus, times, divide, modulo, and, or, not, equal, notEqual, less, lessEqual, greater,
  greaterEqual, assign, arrow, increment, decrement, colons, comma, semicolon, openParen,
  closeParen, openBrace, closeBrace, openBracket, closeBracket]

/-- Reserved words with their marks; some signs may be spelled out. -/
def reserved : List (String × Mark) :=
  words.map (fun m => (m.name, m)) ++ [
    ("purasu", plus), ("mainasu", minus), ("purodakuto", times), ("supuritto", divide),
    ("ando", and), ("matawa", or), ("nai", not)]

def ofWord? (word : String) : Option Mark := reserved.lookup word

/-- The sign that starts with `c`, and whether the character after it belongs to it. -/
def ofChars? (c : Char) (next : Option Char) : Option (Mark × Bool) :=
  match c, next with
  | '=', some '=' => some (equal, true)
  | '=', some '>' => some (arrow, true)
  | '+', some '+' => some (increment, true)
  | '-', some '-' => some (decrement, true)
  | '!', some '=' => some (notEqual, true)
  | '<', some '=' => some (lessEqual, true)
  | '>', some '=' => some (greaterEqual, true)
  | '&', some '&' => some (and, true)
  | '|', some '|' => some (or, true)
  | ':', some ':' => some (colons, true)
  | '(', _ => some (openParen, false)
  | ')', _ => some (closeParen, false)
  | '{', _ => some (openBrace, false)
  | '}', _ => some (closeBrace, false)
  | '[', _ => some (openBracket, false)
  | ']', _ => some (closeBracket, false)
  | ',', _ => some (comma, false)
  | ';', _ => some (semicolon, false)
  | '*', _ => some (times, false)
  | '/', _ => some (divide, false)
  | '%', _ => some (modulo, false)
  | '=', _ => some (assign, false)
  | '+', _ => some (plus, false)
  | '-', _ => some (minus, false)
  | '!', _ => some (not, false)
  | '<', _ => some (less, false)
  | '>', _ => some (greater, false)
  | _, _ => none

end Mark

namespace Token

inductive Kind where
  | endOfInput
  | identifier
  | integer
  | float
  | string
  | mark (m : Mark)
deriving DecidableEq, Repr

instance : Coe Mark Kind := ⟨.mark⟩

namespace Kind

def name : Kind → String
  | endOfInput => "end of input"
  | identifier => "identifier"
  | integer => "integer"
  | float => "float"
  | string => "string"
  | mark m => m.name

/-- All kinds, in the order in which they are numbered from zero. -/
def all : List Kind :=
  [endOfInput, identifier, integer, float, string] ++ (Mark.words ++ Mark.signs).map mark

def nameOfCode (code : Int) : String :=
  match if code < 0 then none else all[code.toNat]? with
  | some kind => kind.name
  | none => s!"unknown_kind_{code}"

def ofWord (word : String) : Kind :=
  match Mark.ofWord? word with
  | some m => mark m
  | none => identifier

/-- How a kind is named in "expected …": fixed spellings are quoted. -/
def expectation : Kind → Bytes
  | mark m => Text.quoteString m.name
  | kind => kind.name

end Kind

def markExpectation (m : Mark) : Bytes := (Kind.mark m).expectation

/-- What a token says. A mark keeps the word it was spelled with, if it was a word. -/
inductive Lexeme where
  | endOfInput
  | identifier (name : String)
  | integer (value : Nat)
  | float (value : Float)
  | string (text : String)
  | mark (m : Mark) (spelling : String)

def Lexeme.kind : Lexeme → Kind
  | endOfInput => .endOfInput
  | identifier _ => .identifier
  | integer _ => .integer
  | float _ => .float
  | string _ => .string
  | mark m _ => .mark m

def numberLayout : Decimal.Layout := { least := some (-4), bound := some 6 }

end Token

structure Token where
  lexeme : Token.Lexeme
  start : Position
  stop : Position

namespace Token

def kind (t : Token) : Kind := t.lexeme.kind

def span (t : Token) : Span := ⟨t.start, t.stop⟩

/-- A token as listed: `ID(x)`, `INT(1)`, or its spelling. -/
def text (t : Token) : Bytes :=
  match t.lexeme with
  | .endOfInput => "EOF"
  | .identifier name => Bytes.ofString ("ID(" ++ name ++ ")")
  | .integer value => Bytes.ofString s!"INT({value})"
  | .float value => Bytes.ofString ("FLOAT(" ++ numberLayout.text value ++ ")")
  | .string text => "STR(" ++ Text.quoteString text ++ ")"
  | .mark m _ => m.name

def description (t : Token) : Bytes :=
  match t.lexeme with
  | .endOfInput => "end of input"
  | .identifier name => "identifier " ++ Text.quoteString name
  | .integer value => Bytes.ofString s!"integer {value}"
  | .float value => Bytes.ofString ("float " ++ numberLayout.text value)
  | .string text => "string " ++ Text.quoteString text
  | .mark m _ => Text.quoteString m.name

end Token

end Kotoba
