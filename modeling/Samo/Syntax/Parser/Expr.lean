import Samo.Syntax
import Samo.Syntax.Cursor
import Samo.Text.Literal

/-!
# Reading expressions

One parser for each level of the grammar, from loosest to tightest: `or` and `xor`, `and`, `not`,
one comparison, `+` and `-`, `*` `/` and `%`, the sign, and what stands for itself. Each level takes
the parser of `nested` expressions, those between parentheses. `expression n` reads expressions with
parentheses nested less than `n` deep, and a text cannot nest deeper than it has tokens.
-/

namespace Samo.Parser

/-- A prefix operator any number of times before an operand; `n` bounds the number. -/
def signed (mark : Kind) (op : UnaryOp) (operand : Parser Expr) : Nat → Parser Expr
  | 0 => operand
  | n + 1 => do
    match ← accept mark with
    | some t => return .unary t.pos op (← signed mark op operand n)
    | none => operand

/-- More operands behind `x`, grouped to the left; `n` bounds their number. -/
def moreOperands (op? : Kind → Option BinaryOp) (operand : Parser Expr) : Nat → Expr → Parser Expr
  | 0, x => return x
  | n + 1, x => do
    let t ← peek
    match op? t.kind with
    | none => return x
    | some op =>
      let _ ← advance
      let y ← operand
      moreOperands op? operand n (.binary t.pos op x y)

/-- Operands with operators of one level between them. -/
def leftGrouped (op? : Kind → Option BinaryOp) (operand : Parser Expr) : Parser Expr := do
  let x ← operand
  moreOperands op? operand (← remaining) x

/-- The operators of the loosest level. -/
def eitherOp? : Kind → Option BinaryOp
  | .keyword .orWord => some .or
  | .keyword .xorWord => some .xor
  | _ => none

/-- The operator that binds tighter than `or`. -/
def andOp? : Kind → Option BinaryOp
  | .keyword .andWord => some .and
  | _ => none

/-- The operators that compare. -/
def comparisonOp? : Kind → Option BinaryOp
  | .punct .less => some .lt
  | .punct .lessEq => some .le
  | .punct .greater => some .gt
  | .punct .greaterEq => some .ge
  | .punct .equal => some .eq
  | .punct .notEqual => some .ne
  | _ => none

/-- The operators of sums. -/
def sumOp? : Kind → Option BinaryOp
  | .punct .plus => some .add
  | .punct .minus => some .sub
  | _ => none

/-- The operators of products. -/
def productOp? : Kind → Option BinaryOp
  | .punct .star => some .mul
  | .punct .slash => some .div
  | .punct .percent => some .mod
  | _ => none

/-- A name and its arguments. -/
def callWith (nested : Parser Expr) : Parser (Pos × String × List Expr) := do
  let name ← advance
  let args ← itemList nested
  return (name.pos, name.text, args)

/-- A literal, a name, a call, or an expression between parentheses. -/
def primary (nested : Parser Expr) : Parser Expr := do
  let t ← peek
  match t.kind with
  | .intLiteral =>
    let _ ← advance
    match Literal.int? t.text with
    | some n => return .int t.pos t.text n
    | none => fail t (.outOfRange t.text)
  | .stringLiteral =>
    let _ ← advance
    return .string t.pos t.text (Literal.value t.text)
  | .keyword .trueWord =>
    let _ ← advance
    return .boolie t.pos true
  | .keyword .falseWord =>
    let _ ← advance
    return .boolie t.pos false
  | .identifier =>
    if (← get).second.kind = .punct .leftParen then
      let (p, name, args) ← callWith nested
      return .call p name args
    else
      let _ ← advance
      return .ident t.pos t.text
  | .punct .leftParen =>
    let _ ← advance
    let x ← nested
    let _ ← sign .rightParen
    return .paren t.pos x
  | _ => fail t (.noExpression t.toLexeme)

/-- A primary expression with any number of signs before it. -/
def factor (nested : Parser Expr) : Parser Expr := do
  signed (.punct .minus) .negate (primary nested) (← remaining)

/-- Factors with `*`, `/` and `%` between them. -/
def product (nested : Parser Expr) : Parser Expr := leftGrouped productOp? (factor nested)

/-- Products with `+` and `-` between them. -/
def sum (nested : Parser Expr) : Parser Expr := leftGrouped sumOp? (product nested)

/-- A sum, or two sums compared. Comparisons do not chain. -/
def comparison (nested : Parser Expr) : Parser Expr := do
  let x ← sum nested
  let t ← peek
  match comparisonOp? t.kind with
  | none => return x
  | some op =>
    let _ ← advance
    let y ← sum nested
    let u ← peek
    match comparisonOp? u.kind with
    | none => return .binary t.pos op x y
    | some _ => fail u .chainedComparison

/-- A comparison with any number of `not` before it. -/
def negation (nested : Parser Expr) : Parser Expr := do
  signed (.keyword .notWord) .not (comparison nested) (← remaining)

/-- Negations with `and` between them. -/
def conjunction (nested : Parser Expr) : Parser Expr := leftGrouped andOp? (negation nested)

/-- Conjunctions with `or` and `xor` between them. -/
def disjunction (nested : Parser Expr) : Parser Expr := leftGrouped eitherOp? (conjunction nested)

/-- An expression whose parentheses are nested less than `n` deep. -/
def expression : Nat → Parser Expr
  | 0 => do
    let t ← peek
    fail t (.noExpression t.toLexeme)
  | n + 1 => disjunction (expression n)

def expr : Parser Expr := do expression ((← remaining) + 1)

/-- A call whose arguments are expressions. -/
def call : Parser (Pos × String × List Expr) := callWith expr

end Samo.Parser
