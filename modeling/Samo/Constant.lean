import Samo.Syntax

/-!
# Constant expressions

`fold` computes the value of an expression that names nothing and calls nothing. The answer is a
value, nothing where the value is not known, or an error where a known integer is divided by a known
zero. Integers wrap around at 32 bits and quotients are rounded toward zero.
-/

namespace Samo

/-- What can go wrong while folding. -/
inductive FoldError where
  | divisionByZero
deriving DecidableEq, Repr

/-- The report on an error. -/
def FoldError.message : FoldError → String
  | divisionByZero => "division by zero in constant expression"

/-- A value, nothing, or an error. -/
abbrev Folded := Except FoldError (Option Value)

namespace Constant

/-- The value of an operator with one operand. -/
def unary : UnaryOp → Value → Option Value
  | .negate, .int n => some (.int (-n))
  | .not, .boolie b => some (.boolie !b)
  | _, _ => none

/-- The value of an arithmetic operator on integers. -/
def arithmetic (x y : Int32) : BinaryOp → Folded
  | .add => .ok (some (.int (x + y)))
  | .sub => .ok (some (.int (x - y)))
  | .mul => .ok (some (.int (x * y)))
  | .div => if y = 0 then .error .divisionByZero else .ok (some (.int (x / y)))
  | .mod => if y = 0 then .error .divisionByZero else .ok (some (.int (x % y)))
  | _ => .ok none

/-- The value of a comparison of integers. -/
def compare (x y : Int32) : BinaryOp → Option Value
  | .lt => some (.boolie (x < y))
  | .le => some (.boolie (x ≤ y))
  | .gt => some (.boolie (y < x))
  | .ge => some (.boolie (y ≤ x))
  | .eq => some (.boolie (x == y))
  | .ne => some (.boolie (x != y))
  | _ => none

/-- The value of an operator on strings. -/
def strings (x y : String) : BinaryOp → Option Value
  | .add => some (.string (x ++ y))
  | .eq => some (.boolie (x == y))
  | .ne => some (.boolie (x != y))
  | _ => none

/-- The value of an operator on truth values. Their equality is not computed. -/
def boolies (x y : Bool) : BinaryOp → Option Value
  | .and => some (.boolie (x && y))
  | .or => some (.boolie (x || y))
  | .xor => some (.boolie (x != y))
  | _ => none

/-- The value of an operator with two operands. -/
def binary (op : BinaryOp) : Value → Value → Folded
  | .int x, .int y => if op.isArithmetic then arithmetic x y op else .ok (compare x y op)
  | .string x, .string y => .ok (strings x y op)
  | .boolie x, .boolie y => .ok (boolies x y op)
  | _, _ => .ok none

end Constant

namespace Expr

/-- The value of an expression, as far as it is known. -/
def fold : Expr → Folded
  | int _ _ n => .ok (some (.int n))
  | string _ _ s => .ok (some (.string s))
  | boolie _ b => .ok (some (.boolie b))
  | ident .. => .ok none
  | call .. => .ok none
  | paren _ x => x.fold
  | unary _ op x => do
    let v ← x.fold
    return v.bind (Constant.unary op)
  | binary _ op x y => do
    let v ← x.fold
    let w ← y.fold
    match v, w with
    | some v, some w => Constant.binary op v w
    | _, _ => return none

/-- The value of an expression if it is known and of the type. -/
def known? (e : Expr) (type : ValueType) : Option Value :=
  match e.fold with
  | .ok (some v) => if v.type = type then some v else none
  | _ => none

/-- What goes wrong while folding the expression. -/
def foldError? (e : Expr) : Option FoldError :=
  match e.fold with
  | .error err => some err
  | .ok _ => none

end Expr

end Samo
