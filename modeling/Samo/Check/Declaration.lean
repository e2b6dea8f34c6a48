import Samo.Check.Typing

/-!
# Declarations and assignments

How a name comes to stand for something. A name can be declared if no built-in function has it and
it stands for nothing yet, in the scope or around it. A variable is declared also if its initial
value is wrong; what is known of its value is then nothing.
-/

namespace Samo

namespace Check

/-- Whether a name can be declared here. That it cannot is fatal. -/
def checkDeclarable (pos : Pos) (name : String) : Check Bool := do
  if (← symbols).isBuiltin name then
    fatal pos (.builtinRedeclared name)
    return false
  else
    match ← lookup name with
    | some previous =>
      fatal pos (.declaredBefore name previous.line)
      return false
    | none => return true

/-- Whether an expression is one of a type. That it is not is fatal, at the name it is for. -/
def expectType (type : ValueType) (e : Expr) (pos : Pos) : Check Bool := do
  if ← e.accepts type then return true
  else
    let found ← e.detect
    if found.homogeneous && found.type = .value type then fatal pos (.invalidValue type)
    else fatal pos (.wrongValue type found)
    return false

/-- The variable with what is known of its initial value. -/
def foldInto (v : Variable) (e : Expr) : Check Variable := do
  if ← checkConstant e then
    match e.known? v.type with
    | some value => return { v with value, known := true }
    | none => return v
  else return v

/-- The variable with its initial value, if the value is right. -/
def initialise (v : Variable) (e : Expr) (pos : Pos) : Check Variable := do
  let v := { v with initialised := true }
  if ← expectType v.type e pos then foldInto v e else return v

/-- Puts a variable into the current scope. -/
def declareVariable (v : Variable) : Check Unit := do
  let home := (← symbols).current
  modifySymbols (·.insert (.var v))
  let how := if v.inferred then " (inferred)" else ""
  debug s!"declared {v.type.name} {v.name}{how} at {home.text}"

/-- A declaration that gives the type. Without an initial value the variable has the usual one. -/
def checkDeclaration (pos : Pos) (type : TypeName) (namePos : Pos) (name : String)
    (init : Option Expr) : Check Unit := do
  match type with
  | .void => fatal pos .voidVariable
  | .value type =>
    if ← checkDeclarable namePos name then
      let v := Variable.fresh type name namePos.line
      match init with
      | none => declareVariable { v with known := true }
      | some e => declareVariable (← initialise v e namePos)

/-- A declaration that leaves the type to the initial value. -/
def checkInference (namePos : Pos) (name : String) (init : Expr) : Check Unit := do
  let found ← init.detect
  if !found.homogeneous then fatal namePos .inferenceMixed
  else
    match found.type.value? with
    | none => fatal namePos (.inferenceType name found.type)
    | some type =>
      if ← checkDeclarable namePos name then
        let v := { Variable.fresh type name namePos.line with inferred := true }
        declareVariable (← initialise v init namePos)

def checkAssignment (pos : Pos) (name : String) (value : Expr) : Check Unit := do
  if (← symbols).isBuiltin name then fatal pos (.builtinAssigned name)
  else
    match ← lookup name with
    | none => fatal pos .undeclaredAssigned
    | some (.fn _) => fatal pos .functionAssigned
    | some (.var v) =>
      if ← expectType v.type value pos then
        let _ ← checkConstant value

end Check

end Samo
