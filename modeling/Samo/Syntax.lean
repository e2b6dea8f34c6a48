import Samo.Syntax.Fault
import Samo.Ty

/-!
# Programs

The tree of a program. Every node keeps the positions that reports name. A literal also keeps its
spelling, so that the words of a program can be read off its tree. A statement that could not be
read is a `bad` statement with its fault.
-/

namespace Samo

/-- Operators with one operand. -/
inductive UnaryOp where
  | negate
  | not
deriving DecidableEq, Repr

def UnaryOp.text : UnaryOp → String
  | negate => "-"
  | not => "not"

/-- Operators with two operands, in the order of their codes. -/
inductive BinaryOp where
  | add | sub | mul | div | mod
  | and | or | xor
  | lt | le | gt | ge
  | eq | ne
deriving DecidableEq, Repr

namespace BinaryOp

def text : BinaryOp → String
  | add => "+"
  | sub => "-"
  | mul => "*"
  | div => "/"
  | mod => "%"
  | and => "and"
  | or => "or"
  | xor => "xor"
  | lt => "<"
  | le => "<="
  | gt => ">"
  | ge => ">="
  | eq => "=="
  | ne => "!="

/-- Every operator once. -/
def all : List BinaryOp := [add, sub, mul, div, mod, and, or, xor, lt, le, gt, ge, eq, ne]

/-- The operator with a code. -/
def ofCode? (n : Nat) : Option BinaryOp := all[n]?

/-- How the operator with a code is written; a code of no operator is shown as a question mark. -/
def textOfCode (n : Nat) : String := (ofCode? n).elim "?" text

/-- What an operator does with its operands. -/
inductive Family where
  | arithmetic
  | logical
  | relational
  | equality
deriving DecidableEq, Repr

def family : BinaryOp → Family
  | add | sub | mul | div | mod => .arithmetic
  | and | or | xor => .logical
  | lt | le | gt | ge => .relational
  | eq | ne => .equality

/-- Whether the operator computes with its operands. -/
def isArithmetic (op : BinaryOp) : Bool := op.family == .arithmetic

end BinaryOp

/-- Expressions. A binary expression has the position of its operator. -/
inductive Expr where
  | int (pos : Pos) (spelling : String) (value : Int32)
  | string (pos : Pos) (spelling : String) (value : String)
  | boolie (pos : Pos) (value : Bool)
  | ident (pos : Pos) (name : String)
  | unary (pos : Pos) (op : UnaryOp) (x : Expr)
  | binary (pos : Pos) (op : BinaryOp) (x y : Expr)
  | paren (pos : Pos) (x : Expr)
  | call (pos : Pos) (name : String) (args : List Expr)
deriving Repr, Inhabited

namespace Expr

def pos : Expr → Pos
  | int p .. | string p .. | boolie p .. | ident p .. | unary p .. | binary p .. | paren p ..
  | call p .. => p

/-- The position of the first word of the expression. -/
def start : Expr → Pos
  | binary _ _ x _ => x.start
  | e => e.pos

/--
Whether the form of the expression alone shows that it is a truth value: a literal, a negation, a
logical operation or a comparison, in parentheses or not.
-/
def isBooleanForm : Expr → Bool
  | boolie .. => true
  | unary _ op _ => op == .not
  | binary _ op _ _ => !op.isArithmetic
  | paren _ x => x.isBooleanForm
  | int .. | string .. | ident .. | call .. => false

end Expr

/-- A parameter of a function: its type and its name, each with its position. -/
structure Param where
  typePos : Pos
  type : TypeName
  namePos : Pos
  name : String
deriving DecidableEq, Repr

/-- A function's definition without its body. A result that is not written is `void`. -/
structure Header where
  namePos : Pos
  name : String
  params : List Param
  returns : Option (Pos × TypeName)
deriving DecidableEq, Repr

/-- What the function returns. -/
def Header.result (h : Header) : TypeName := h.returns.elim .void (·.2)

mutual

/--
Statements. `branch` is an if statement: its first arm and the rest of the chain. `maybe` runs its
body by chance, `maybeOtherwise` runs one of two statements by chance.
-/
inductive Stmt where
  | block (body : Block)
  | declare (pos : Pos) (type : TypeName) (namePos : Pos) (name : String) (init : Option Expr)
  | infer (pos : Pos) (namePos : Pos) (name : String) (init : Expr)
  | assign (pos : Pos) (name : String) (value : Expr)
  | call (pos : Pos) (name : String) (args : List Expr)
  | define (pos : Pos) (header : Header) (body : Block)
  | branch (pos : Pos) (cond : Expr) (body : Block) (rest : Branches)
  | loop (pos : Pos) (cond : Expr) (body : Block)
  | breakOut (pos : Pos)
  | continueOn (pos : Pos)
  | returnWith (pos : Pos) (value : Option Expr)
  | needs (pos : Pos) (spelling : String) (path : String)
  | maybe (pos : Pos) (probability : Expr) (body : Stmt)
  | maybeOtherwise (pos : Pos) (probability : Expr) (body : Stmt) (otherwisePos : Pos)
      (alternative : Stmt)
  | bad (pos : Pos) (fault : Fault)

/-- Statements between braces, with the positions of the braces. -/
inductive Block where
  | mk (start stop : Pos) (stmts : List Stmt)

/-- What follows the first arm of an if statement: nothing, an else, or one more arm. -/
inductive Branches where
  | done
  | otherwise (pos : Pos) (body : Block)
  | elseIf (pos : Pos) (cond : Expr) (body : Block) (rest : Branches)

end

/-- A program is a list of statements. -/
abbrev Program := List Stmt

namespace Block

/-- The position of the opening brace. -/
def start : Block → Pos
  | mk p _ _ => p

/-- The position of the closing brace. -/
def stop : Block → Pos
  | mk _ p _ => p

def stmts : Block → List Stmt
  | mk _ _ ss => ss

end Block

namespace Branches

/-- The arms with a condition, in order. -/
def arms : Branches → List (Pos × Expr × Block)
  | done => []
  | otherwise .. => []
  | elseIf p c b rest => (p, c, b) :: rest.arms

/-- The block that is left when no condition holds, if there is one. -/
def last? : Branches → Option (Pos × Block)
  | done => none
  | otherwise p b => some (p, b)
  | elseIf _ _ _ rest => rest.last?

end Branches

namespace Stmt

instance : Inhabited Stmt := ⟨.breakOut .nowhere⟩

/-- The position of the first word of the statement; of a bad one, of the word at fault. -/
def start : Stmt → Pos
  | block b => b.start
  | declare p .. | infer p .. | assign p .. | call p .. | define p .. | branch p .. | loop p ..
  | breakOut p | continueOn p | returnWith p .. | needs p .. | maybe p .. | maybeOtherwise p ..
  | bad p .. => p

/-- Whether the statement is a block, an if or a while. -/
def isCompound : Stmt → Bool
  | block .. | branch .. | loop .. => true
  | _ => false

/-- Whether the statement itself declares a variable or returns. -/
def declaresOrReturns : Stmt → Bool
  | declare .. | infer .. | returnWith .. => true
  | _ => false

end Stmt

end Samo
