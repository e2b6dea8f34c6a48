import Samo.Check.Call

/-!
# Types of expressions

Two questions can be asked of an expression. `Expr.leaves` gives the types of its leaves, where a
negation, a comparison and a logical operation are leaves themselves. `Expr.accepts` says whether it
is an expression of a type. Both report what they find wrong on the way.
-/

namespace Samo

open Check

/-- Whether two expressions can be compared: both of one type, which the operator takes. -/
def Check.checkComparison (pos : Pos) (op : BinaryOp) (x y : Operand) : Check Bool := do
  let left ← x.detect
  if !left.homogeneous then
    error pos .leftMixed
    return false
  else
    let right ← y.detect
    if !right.homogeneous then
      error pos .rightMixed
      return false
    else if left.type ≠ right.type then
      error pos (.incomparable left.type right.type)
      return false
    else if !(if op.family = .relational then left.type.isOrdered else left.type.isComparable) then
      error pos (.operatorType op left.type)
      return false
    else
      match left.type.value? with
      | none => return false
      | some type => x.bothAccept y type

/-- What an identifier stands for. That it stands for nothing is fatal. -/
def Check.identifier (pos : Pos) (name : String) : Check (Option Symbol) := do
  match ← lookup name with
  | some s => return some s
  | none =>
    fatal pos (.unknownIdentifier name)
    return none

mutual

/-- The types of the leaves of an expression, in order. -/
def Expr.leaves : Expr → Check (List Ty)
  | .int .. => return [.value .int]
  | .string .. => return [.value .string]
  | .boolie .. => return [.value .boolie]
  | .ident pos name => return [((← identifier pos name).map (·.type)).getD .thing]
  | .call pos name args => do
    let type ← resolve pos name (Expr.operands args)
    if type = .void then fatal pos .voidCall
    return [type]
  | .unary _ .not _ => return [.value .boolie]
  | .unary _ .negate x => x.leaves
  | .binary _ op x y => do
    if op.isArithmetic then
      let left ← x.leaves
      let right ← y.leaves
      return left ++ right
    else return [.value .boolie]
  | .paren _ x => x.leaves

/-- Whether an expression is one of a type. -/
def Expr.accepts : Expr → ValueType → Check Bool
  | .int .., type => return type = .int
  | .string .., type => return type = .string
  | .boolie .., type => return type = .boolie
  | .ident pos name, type => return (← identifier pos name).map (·.type) = some (.value type)
  | .call pos name args, type => return (← resolve pos name (Expr.operands args)) = .value type
  | .unary _ .negate x, type => if type = .int then x.accepts .int else return false
  | .unary _ .not x, type => if type = .boolie then x.accepts .boolie else return false
  | .binary pos op x y, type =>
    let left : Operand := ⟨x, x.leaves, fun t => x.accepts t⟩
    let right : Operand := ⟨y, y.leaves, fun t => y.accepts t⟩
    match op.family, type with
    | .arithmetic, .int => left.bothAccept right .int
    | .arithmetic, .string => if op = .add then left.bothAccept right .string else return false
    | .logical, .boolie => left.bothAccept right .boolie
    | .relational, .boolie => checkComparison pos op left right
    | .equality, .boolie => checkComparison pos op left right
    | _, _ => return false
  | .paren _ x, type => x.accepts type

/-- Expressions with the questions that can be asked of them. -/
def Expr.operands : List Expr → List Operand
  | [] => []
  | e :: es => ⟨e, e.leaves, fun t => e.accepts t⟩ :: Expr.operands es

end

namespace Expr

/-- An expression with the questions that can be asked of it. -/
def operand (e : Expr) : Operand := ⟨e, e.leaves, e.accepts⟩

/-- What the leaves of an expression say. -/
def detect (e : Expr) : Check Detection := e.operand.detect

theorem operands_eq_map (es : List Expr) : Expr.operands es = es.map operand := by
  induction es with
  | nil => simp [operands]
  | cons e es ih => simp [operands, ih, operand]

end Expr

end Samo
