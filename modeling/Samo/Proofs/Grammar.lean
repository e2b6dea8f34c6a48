import Samo.Syntax
import Samo.Text.Literal
import Samo.Token.Lexer

/-!
# The grammar

A tree is written as a row of words (`Expr.lexemes`, `Stmt.lexemes`). Not every tree can be written
so that it is read back: the operators of an expression have levels, from the loosest to the tightest,
and an operand that binds looser than its operator has to stand in parentheses. `Grammatical` says
that a tree keeps to the levels, that its names and literals are spelled as such, and that an
`otherwise` stands where it belongs.
-/

namespace Samo

/-! ## Words -/

/-- Whether a text is a word that names something. -/
def isName (text : String) : Bool :=
  match text.toList with
  | [] => false
  | c :: cs => isLetter c && cs.all isWordChar && (Keyword.ofText? text).isNone

/-- Whether a text is a row of digits. -/
def isNumeral (text : String) : Bool := !text.toList.isEmpty && text.toList.all isDigit

namespace Lexeme

def word (w : Keyword) : Lexeme := ⟨.keyword w, w.text⟩

def sign (p : Punct) : Lexeme := ⟨.punct p, p.text⟩

def name (x : String) : Lexeme := ⟨.identifier, x⟩

/-- A lexeme that takes part in the grammar, and whose text is of its kind. -/
def IsWord (l : Lexeme) : Prop :=
  match l.kind with
  | .keyword w => l.text = w.text
  | .punct p => l.text = p.text
  | .identifier => isName l.text = true
  | .intLiteral => isNumeral l.text = true
  | .stringLiteral => (Literal.read? l.text.toList).isSome = true
  | .endOfFile | .comment | .invalid _ => False

/-- Words between parentheses. -/
def inParens (ls : List Lexeme) : List Lexeme := sign .leftParen :: ls ++ [sign .rightParen]

/-- Items with commas between them. -/
def commaSeparated : List (List Lexeme) → List Lexeme
  | [] => []
  | l :: ls => l ++ ls.flatMap (sign .comma :: ·)

end Lexeme

/-- The word for a type. -/
def TypeName.keyword : TypeName → Keyword
  | .value .int => .intWord
  | .value .string => .stringWord
  | .value .boolie => .boolieWord
  | .void => .voidWord

/-! ## Operators -/

namespace UnaryOp

/-- The word for the operator. -/
def lexeme : UnaryOp → Lexeme
  | negate => .sign .minus
  | not => .word .notWord

/-- How tight the operator binds. -/
def level : UnaryOp → Nat
  | not => 2
  | negate => 6

end UnaryOp

namespace BinaryOp

/-- The word for the operator. -/
def lexeme : BinaryOp → Lexeme
  | add => .sign .plus
  | sub => .sign .minus
  | mul => .sign .star
  | div => .sign .slash
  | mod => .sign .percent
  | and => .word .andWord
  | or => .word .orWord
  | xor => .word .xorWord
  | lt => .sign .less
  | le => .sign .lessEq
  | gt => .sign .greater
  | ge => .sign .greaterEq
  | eq => .sign .equal
  | ne => .sign .notEqual

/-- How tight the operator binds: `or` and `xor`, `and`, comparisons, sums, products. -/
def level : BinaryOp → Nat
  | or | xor => 0
  | and => 1
  | lt | le | gt | ge | eq | ne => 3
  | add | sub => 4
  | mul | div | mod => 5

/-- How tight the first operand has to bind. Only comparisons do not group to the left. -/
def leftLevel (op : BinaryOp) : Nat := if op.level = 3 then 4 else op.level

end BinaryOp

/-! ## Expressions -/

/-- How tight an expression binds. What is no operation binds tightest. -/
def Expr.level : Expr → Nat
  | unary _ op _ => op.level
  | binary _ op _ _ => op.level
  | int .. | string .. | boolie .. | ident .. | paren .. | call .. => 7

mutual

/-- The words of an expression. -/
def Expr.lexemes : Expr → List Lexeme
  | .int _ spelling _ => [⟨.intLiteral, spelling⟩]
  | .string _ spelling _ => [⟨.stringLiteral, spelling⟩]
  | .boolie _ value => [.word (if value then .trueWord else .falseWord)]
  | .ident _ name => [.name name]
  | .unary _ op x => op.lexeme :: x.lexemes
  | .binary _ op x y => x.lexemes ++ op.lexeme :: y.lexemes
  | .paren _ x => Lexeme.inParens x.lexemes
  | .call _ name args => .name name :: Lexeme.inParens (Lexeme.commaSeparated (Expr.lexemesEach args))

def Expr.lexemesEach : List Expr → List (List Lexeme)
  | [] => []
  | e :: es => e.lexemes :: Expr.lexemesEach es

end

mutual

/-- An expression that keeps to the levels, with names and literals spelled as such. -/
def Expr.Grammatical : Expr → Prop
  | .int _ spelling value => isNumeral spelling = true ∧ Literal.int? spelling = some value
  | .string _ spelling value => Literal.read? spelling.toList = some value.toList
  | .boolie .. => True
  | .ident _ name => isName name = true
  | .unary _ op x => op.level ≤ x.level ∧ x.Grammatical
  | .binary _ op x y =>
    op.leftLevel ≤ x.level ∧ op.level < y.level ∧ x.Grammatical ∧ y.Grammatical
  | .paren _ x => x.Grammatical
  | .call _ name args => isName name = true ∧ Expr.GrammaticalAll args

def Expr.GrammaticalAll : List Expr → Prop
  | [] => True
  | e :: es => e.Grammatical ∧ Expr.GrammaticalAll es

end

mutual

/-- An expression without its positions. -/
def Expr.bare : Expr → Expr
  | .int _ spelling value => .int .nowhere spelling value
  | .string _ spelling value => .string .nowhere spelling value
  | .boolie _ value => .boolie .nowhere value
  | .ident _ name => .ident .nowhere name
  | .unary _ op x => .unary .nowhere op x.bare
  | .binary _ op x y => .binary .nowhere op x.bare y.bare
  | .paren _ x => .paren .nowhere x.bare
  | .call _ name args => .call .nowhere name (Expr.bareAll args)

def Expr.bareAll : List Expr → List Expr
  | [] => []
  | e :: es => e.bare :: Expr.bareAll es

end

namespace Expr

theorem lexemesEach_eq_map (es : List Expr) : lexemesEach es = es.map lexemes := by
  induction es with
  | nil => simp [lexemesEach]
  | cons e es ih => simp [lexemesEach, ih]

theorem grammaticalAll_iff (es : List Expr) : GrammaticalAll es ↔ ∀ e ∈ es, e.Grammatical := by
  induction es with
  | nil => simp [GrammaticalAll]
  | cons e es ih => simp [GrammaticalAll, ih]

theorem bareAll_eq_map (es : List Expr) : bareAll es = es.map bare := by
  induction es with
  | nil => simp [bareAll]
  | cons e es ih => simp [bareAll, ih]

end Expr

/-! ## Statements -/

/-- The words of a parameter. -/
def Param.lexemes (p : Param) : List Lexeme := [.word p.type.keyword, .name p.name]

/-- The words of a function's definition before its body. -/
def Header.lexemes (h : Header) : List Lexeme :=
  .word .fnWord :: .name h.name :: Lexeme.inParens (Lexeme.commaSeparated (h.params.map Param.lexemes)) ++
    h.returns.elim [] fun r => [.word r.2.keyword]

mutual

/-- The words of a statement. There are none for a statement that could not be read. -/
def Stmt.lexemes : Stmt → List Lexeme
  | .block body => body.lexemes
  | .declare _ type _ name init =>
    .word type.keyword :: .name name :: init.elim [] (.sign .assign :: ·.lexemes) ++
      [.sign .semicolon]
  | .infer _ _ name init =>
    .word .letWord :: .name name :: .sign .assign :: init.lexemes ++ [.sign .semicolon]
  | .assign _ name value => .name name :: .sign .assign :: value.lexemes ++ [.sign .semicolon]
  | .call pos name args => (Expr.call pos name args).lexemes ++ [.sign .semicolon]
  | .define _ header body => header.lexemes ++ body.lexemes
  | .branch _ cond body rest =>
    .word .ifWord :: Lexeme.inParens cond.lexemes ++ body.lexemes ++ rest.lexemes
  | .loop _ cond body => .word .whileWord :: Lexeme.inParens cond.lexemes ++ body.lexemes
  | .breakOut _ => [.word .breakWord, .sign .semicolon]
  | .continueOn _ => [.word .continueWord, .sign .semicolon]
  | .returnWith _ value =>
    .word .returnWord :: value.elim [] (·.lexemes) ++ [.sign .semicolon]
  | .needs _ spelling _ =>
    [.word .needsWord, ⟨.stringLiteral, spelling⟩, .sign .semicolon]
  | .maybe _ probability body =>
    .word .maybeWord :: Lexeme.inParens probability.lexemes ++ body.lexemes
  | .maybeOtherwise _ probability body _ alternative =>
    .word .maybeWord :: Lexeme.inParens probability.lexemes ++ body.lexemes ++
      .word .otherwiseWord :: alternative.lexemes
  | .bad .. => []

def Block.lexemes : Block → List Lexeme
  | .mk _ _ stmts => .sign .leftBrace :: Stmt.lexemesAll stmts ++ [.sign .rightBrace]

def Branches.lexemes : Branches → List Lexeme
  | .done => []
  | .otherwise _ body => .word .elseWord :: body.lexemes
  | .elseIf _ cond body rest =>
    .word .elseWord :: .word .ifWord :: Lexeme.inParens cond.lexemes ++ body.lexemes ++ rest.lexemes

def Stmt.lexemesAll : List Stmt → List Lexeme
  | [] => []
  | s :: ss => s.lexemes ++ Stmt.lexemesAll ss

end

def Program.lexemes (program : Program) : List Lexeme := Stmt.lexemesAll program

/-- Whether an `otherwise` behind the statement would belong to a `maybe` at its end. -/
def Stmt.endsOpen : Stmt → Bool
  | .maybe .. => true
  | .maybeOtherwise _ _ _ _ alternative => alternative.endsOpen
  | _ => false

mutual

/-- A statement that can be written: nothing in it is bad, its expressions are grammatical, and
between a `maybe` and its `otherwise` no other `maybe` waits for one. -/
def Stmt.Grammatical : Stmt → Prop
  | .block body => body.Grammatical
  | .declare _ _ _ name init => isName name = true ∧ ∀ e ∈ init, e.Grammatical
  | .infer _ _ name init => isName name = true ∧ init.Grammatical
  | .assign _ name value => isName name = true ∧ value.Grammatical
  | .call pos name args => (Expr.call pos name args).Grammatical
  | .define _ header body =>
    isName header.name = true ∧ (∀ p ∈ header.params, isName p.name = true) ∧ body.Grammatical
  | .branch _ cond body rest => cond.Grammatical ∧ body.Grammatical ∧ rest.Grammatical
  | .loop _ cond body => cond.Grammatical ∧ body.Grammatical
  | .breakOut _ | .continueOn _ => True
  | .returnWith _ value => ∀ e ∈ value, e.Grammatical
  | .needs _ spelling path => Literal.read? spelling.toList = some path.toList
  | .maybe _ probability body => probability.Grammatical ∧ body.Grammatical
  | .maybeOtherwise _ probability body _ alternative =>
    probability.Grammatical ∧ body.Grammatical ∧ body.endsOpen = false ∧ alternative.Grammatical
  | .bad .. => False

def Block.Grammatical : Block → Prop
  | .mk _ _ stmts => Stmt.GrammaticalAll stmts

def Branches.Grammatical : Branches → Prop
  | .done => True
  | .otherwise _ body => body.Grammatical
  | .elseIf _ cond body rest => cond.Grammatical ∧ body.Grammatical ∧ rest.Grammatical

def Stmt.GrammaticalAll : List Stmt → Prop
  | [] => True
  | s :: ss => s.Grammatical ∧ Stmt.GrammaticalAll ss

end

/-- A program that can be written. -/
def Program.Grammatical (program : Program) : Prop := Stmt.GrammaticalAll program

def Param.bare (p : Param) : Param := { p with typePos := .nowhere, namePos := .nowhere }

def Header.bare (h : Header) : Header where
  namePos := .nowhere
  name := h.name
  params := h.params.map Param.bare
  returns := h.returns.map fun r => (.nowhere, r.2)

mutual

/-- A statement without its positions. -/
def Stmt.bare : Stmt → Stmt
  | .block body => .block body.bare
  | .declare _ type _ name init => .declare .nowhere type .nowhere name (init.map Expr.bare)
  | .infer _ _ name init => .infer .nowhere .nowhere name init.bare
  | .assign _ name value => .assign .nowhere name value.bare
  | .call _ name args => .call .nowhere name (args.map Expr.bare)
  | .define _ header body => .define .nowhere header.bare body.bare
  | .branch _ cond body rest => .branch .nowhere cond.bare body.bare rest.bare
  | .loop _ cond body => .loop .nowhere cond.bare body.bare
  | .breakOut _ => .breakOut .nowhere
  | .continueOn _ => .continueOn .nowhere
  | .returnWith _ value => .returnWith .nowhere (value.map Expr.bare)
  | .needs _ spelling path => .needs .nowhere spelling path
  | .maybe _ probability body => .maybe .nowhere probability.bare body.bare
  | .maybeOtherwise _ probability body _ alternative =>
    .maybeOtherwise .nowhere probability.bare body.bare .nowhere alternative.bare
  | .bad _ fault => .bad .nowhere fault

def Block.bare : Block → Block
  | .mk _ _ stmts => .mk .nowhere .nowhere (Stmt.bareAll stmts)

def Branches.bare : Branches → Branches
  | .done => .done
  | .otherwise _ body => .otherwise .nowhere body.bare
  | .elseIf _ cond body rest => .elseIf .nowhere cond.bare body.bare rest.bare

def Stmt.bareAll : List Stmt → List Stmt
  | [] => []
  | s :: ss => s.bare :: Stmt.bareAll ss

end

def Program.bare (program : Program) : Program := Stmt.bareAll program

end Samo
