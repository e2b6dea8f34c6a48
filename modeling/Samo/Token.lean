import Samo.Position

/-!
# Tokens

The words of the language. A `Lexeme` is what a piece of text is, a `Token` is a lexeme with the
place where it starts. Text that is no word is an invalid token that keeps its `Flaw`, so a list of
tokens says everything there is to report about the text.
-/

namespace Samo

/-- The reserved words, in the order of their codes. -/
inductive Keyword where
  | fnWord | letWord | ifWord | elseWord | whileWord | breakWord | continueWord | returnWord
  | needsWord | maybeWord | otherwiseWord | trueWord | falseWord
  | andWord | orWord | xorWord | notWord
  | intWord | stringWord | boolieWord | voidWord
deriving DecidableEq, Repr

namespace Keyword

/-- How the word is spelled. -/
def text : Keyword → String
  | fnWord => "fn"
  | letWord => "let"
  | ifWord => "if"
  | elseWord => "else"
  | whileWord => "while"
  | breakWord => "break"
  | continueWord => "continue"
  | returnWord => "return"
  | needsWord => "needs"
  | maybeWord => "maybe"
  | otherwiseWord => "otherwise"
  | trueWord => "true"
  | falseWord => "false"
  | andWord => "and"
  | orWord => "or"
  | xorWord => "xor"
  | notWord => "not"
  | intWord => "int"
  | stringWord => "string"
  | boolieWord => "boolie"
  | voidWord => "void"

/-- Every reserved word once. -/
def all : List Keyword :=
  [fnWord, letWord, ifWord, elseWord, whileWord, breakWord, continueWord, returnWord, needsWord,
    maybeWord, otherwiseWord, trueWord, falseWord, andWord, orWord, xorWord, notWord, intWord,
    stringWord, boolieWord, voidWord]

/-- The reserved word spelled this way. -/
def ofText? (s : String) : Option Keyword := all.find? (·.text == s)

theorem ofText?_text (w : Keyword) : ofText? w.text = some w := by cases w <;> decide

theorem text_of_ofText? {s : String} {w : Keyword} (found : ofText? s = some w) : w.text = s := by
  have := List.find?_some found
  simpa using this

end Keyword

/-- Brackets, separators and operators that are not words, in the order of their codes. -/
inductive Punct where
  | leftParen | rightParen | leftBrace | rightBrace | comma | semicolon | assign
  | plus | minus | star | slash | percent
  | less | lessEq | greater | greaterEq | equal | notEqual
deriving DecidableEq, Repr

namespace Punct

/-- How the sign is written. -/
def text : Punct → String
  | leftParen => "("
  | rightParen => ")"
  | leftBrace => "\x7b"
  | rightBrace => "\x7d"
  | comma => ","
  | semicolon => ";"
  | assign => "="
  | plus => "+"
  | minus => "-"
  | star => "*"
  | slash => "/"
  | percent => "%"
  | less => "<"
  | lessEq => "<="
  | greater => ">"
  | greaterEq => ">="
  | equal => "=="
  | notEqual => "!="

/-- Every sign once. -/
def all : List Punct :=
  [leftParen, rightParen, leftBrace, rightBrace, comma, semicolon, assign, plus, minus, star,
    slash, percent, less, lessEq, greater, greaterEq, equal, notEqual]

end Punct

/-- Why a piece of text is no word of the language. -/
inductive Flaw where
  | unrecognised (c : Char)
  | badEscape
  | unterminated
deriving DecidableEq, Repr

def Flaw.message : Flaw → String
  | unrecognised c => s!"token recognition error at: '{c}'"
  | badEscape => "invalid escape sequence in string literal"
  | unterminated => "unterminated string literal"

/-- What a token is. -/
inductive Kind where
  | endOfFile
  | invalid (flaw : Flaw)
  | intLiteral
  | stringLiteral
  | identifier
  | comment
  | keyword (word : Keyword)
  | punct (sign : Punct)
deriving DecidableEq, Repr

namespace Kind

/-- The number that stands for the kind; flaws share one. -/
def code : Kind → Int
  | endOfFile => -1
  | invalid _ => 1
  | intLiteral => 2
  | stringLiteral => 3
  | identifier => 4
  | comment => 5
  | keyword w => 6 + Keyword.all.idxOf w
  | punct p => 6 + Keyword.all.length + Punct.all.idxOf p

/-- What a report calls a token of this kind that it misses. A comment is never missed. -/
def name : Kind → String
  | endOfFile => "end of file"
  | invalid _ => "invalid token"
  | intLiteral => "integer literal"
  | stringLiteral => "string literal"
  | identifier => "identifier"
  | comment => "token 5"
  | keyword w => s!"'{w.text}'"
  | punct p => s!"'{p.text}'"

/-- One kind for every code. -/
def all : List Kind :=
  [endOfFile, invalid .unterminated, intLiteral, stringLiteral, identifier, comment] ++
    Keyword.all.map keyword ++ Punct.all.map punct

/-- The name of the kind with a code; a code of no kind is shown as a number. -/
def nameOfCode (n : Int) : String :=
  match all.find? (·.code == n) with
  | some k => k.name
  | none => s!"token {n}"

/-- Whether the kind is read past: a comment takes no part in the grammar. -/
def isHidden : Kind → Bool
  | comment => true
  | _ => false

end Kind

/-- A piece of text and what it is. -/
structure Lexeme where
  kind : Kind
  text : String
deriving DecidableEq, Repr

/-- What a report says it found. -/
def Lexeme.describe (l : Lexeme) : String :=
  match l.kind with
  | .endOfFile => "end of file"
  | .invalid _ => s!"invalid token '{l.text}'"
  | _ => s!"'{l.text}'"

/-- A lexeme at a place. -/
structure Token extends Lexeme where
  start : Mark
deriving DecidableEq, Repr

namespace Token

/-- The token that stands after the last word of a text. -/
def endOfFile (m : Mark) : Token := ⟨⟨.endOfFile, "<EOF>"⟩, m⟩

/-- Where the token starts. -/
def pos (t : Token) : Pos := t.start.pos

/-- How many characters of the text the token covers. -/
def width (t : Token) : Nat := if t.kind = .endOfFile then 0 else t.text.length

/-- The offset of the last character of the token, one less than its start if it has none. -/
def stop (t : Token) : Int := (t.start.offset + t.width : Int) - 1

/-- What is wrong with the token, if it is invalid. -/
def flaw? (t : Token) : Option Flaw :=
  match t.kind with
  | .invalid flaw => some flaw
  | _ => none

end Token

end Samo
