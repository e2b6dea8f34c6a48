import Samo.Check.Declaration
import Samo.Check.Paths
import Samo.Check.Returns

/-!
# Programs

One pass over a program. Each block gets a scope, which is registered under its opening brace when
the block is done. A function's parameters and its body share one scope: `beginFunction` declares
the parameters in a new one, and the body resumes it. When the body is done, `endFunction` looks at
the returns once more.
-/

namespace Samo

namespace Check

/-! ## Conditions and chances -/

/-- The condition of an if or a while. -/
def checkCondition (pos : Pos) (keyword : Keyword) (cond : Expr) : Check Unit := do
  if ← cond.accepts .boolie then
    let _ ← checkConstant cond
  else fatal pos (.condition keyword)

/-- The number after `maybe`. -/
def checkProbability (pos : Pos) (compound : Bool) (e : Expr) : Check Unit := do
  let found ← e.detect
  if !found.homogeneous then fatal pos (.probabilityMixed compound)
  else
    let valid ← if found.type = .value .int then e.accepts .int else pure false
    if valid then
      let _ ← checkConstant e
    else fatal pos (.probabilityType compound)

/-- What may not happen by chance. -/
def checkProbable (pos : Pos) (body : Stmt) : Check Unit := do
  if body.declaresOrReturns then fatal pos .probableDeclaration

/-- What may not be an alternative. -/
def checkAlternatives (pos : Pos) (body : Stmt) (otherwisePos : Pos) (alternative : Stmt) :
    Check Unit := do
  if body.declaresOrReturns then fatal pos .infeasibleBody
  if alternative.declaresOrReturns then fatal otherwisePos .infeasibleAlternative
  if 0 < (← get).uncertainDepth then warn pos .nestedAlternatives

/-! ## Surroundings -/

/-- Runs an action in a scope one level down. -/
def inScope (mode : EntryMode) (action : Check Unit) : Check Unit := do
  modifySymbols (·.enter mode)
  ensuring action fun s => { s with symbols := s.symbols.leave }

/-- Runs an action as the body of a loop. -/
def inLoop (action : Check Unit) : Check Unit := do
  modify fun s => { s with loopDepth := s.loopDepth + 1 }
  ensuring action fun s => { s with loopDepth := s.loopDepth - 1 }

/-- Runs an action by chance. -/
def inUncertainty (action : Check Unit) : Check Unit := do
  modify fun s => { s with uncertainDepth := s.uncertainDepth + 1 }
  ensuring action fun s => { s with uncertainDepth := s.uncertainDepth - 1 }

/-- Runs an action as the body of a function. A loop around the function is none for its body. -/
def inFunction (f : Function) (action : Check Unit) : Check Unit := do
  let loopDepth := (← get).loopDepth
  modify fun s => { s with currentFunction := some f, loopDepth := 0 }
  ensuring action fun s => { s with currentFunction := none, loopDepth }

/-! ## Functions -/

def declareParam (function : String) (p : Param) : Check (Option Parameter) := do
  match p.type with
  | .void =>
    fatal p.typePos (.parameterType function p.name p.type)
    return none
  | .value type =>
    if ← checkDeclarable p.namePos p.name then
      modifySymbols (·.insert (.var (Variable.fresh type p.name p.namePos.line)))
      return some ⟨p.name, type⟩
    else return none

/-- Declares the parameters in the current scope. There is no list if one of them is wrong. -/
def declareParams (function : String) : List Param → Check (Option (List Parameter))
  | [] => return some []
  | p :: ps => do
    let first ← declareParam function p
    let rest ← declareParams function ps
    return first.bind fun q => rest.map (q :: ·)

/-- Declares a function, and its parameters in a scope of their own. -/
def beginFunction (pos : Pos) (h : Header) : Check (Option Function) := do
  if (← get).currentFunction.isSome then
    fatal pos .nestedFunction
    return none
  else if (← symbols).isBuiltin h.name then
    fatal h.namePos (.builtinRedefined h.name)
    return none
  else
    match ← lookup h.name with
    | some previous =>
      fatal h.namePos (.declaredBefore h.name previous.line)
      return none
    | none =>
      debug s!"Checking function '{h.name}'"
      modifySymbols (·.enter .new)
      let params ← declareParams h.name h.params
      modifySymbols (·.leave)
      match params with
      | none => return none
      | some params =>
        let home := (← symbols).current
        let f : Function :=
          { name := h.name, line := h.namePos.line, params, returns := h.result, home }
        modifySymbols (·.insert (.fn f))
        return some f

/-- Looks at the returns of a function whose body is done. The function passes if all is well. -/
def endFunction (h : Header) (body : Block) (f : Function) : Check Unit := do
  let valid ← checkReturns h.namePos h.result.ty body
  if !valid then fatal h.namePos .bodyInvalid
  let complete ← body.returnsOnAllPaths h.result.ty
  if !complete then fatal h.namePos (.pathsIncomplete h.result)
  if valid && complete then modify fun s => { s with functions := s.functions ++ [f] }

end Check

open Check

/-! ## Statements -/

mutual

def Stmt.check : Stmt → Check Unit
  | .block body => body.check .new
  | .declare pos type namePos name init => checkDeclaration pos type namePos name init
  | .infer _ namePos name init => checkInference namePos name init
  | .assign pos name value => checkAssignment pos name value
  | .call pos name args => discard (resolve pos name (Expr.operands args))
  | .define pos header body => do
    match ← beginFunction pos header with
    | none => return ()
    | some f =>
      inFunction f (body.check .resumeLast)
      endFunction header body f
  | .branch pos cond body rest => do
    checkCondition pos .ifWord cond
    body.check .new
    rest.check
  | .loop pos cond body => do
    checkCondition pos .whileWord cond
    inLoop (body.check .new)
  | .breakOut pos => do
    if (← get).loopDepth = 0 then fatal pos .breakOutside
  | .continueOn pos => do
    if (← get).loopDepth = 0 then fatal pos .continueOutside
  | .returnWith pos value => do
    if (← get).currentFunction.isNone then fatal pos .returnOutside
    else
      match value with
      | none => return ()
      | some e => discard e.detect
  | .needs pos _ _ => warn pos .needsUnsupported
  | .maybe pos probability body => do
    checkProbability pos body.isCompound probability
    checkProbable pos body
    inUncertainty body.check
  | .maybeOtherwise pos probability body otherwisePos alternative => do
    checkProbability pos body.isCompound probability
    checkAlternatives pos body otherwisePos alternative
    inUncertainty do
      body.check
      alternative.check
  | .bad pos fault => fatal pos (.syntaxError pos fault)

/-- Checks the statements of a block in a scope of their own. -/
def Block.check (mode : EntryMode) : Block → Check Unit
  | .mk start _ stmts =>
    inScope mode do
      Stmt.checkAll stmts
      modifySymbols (·.register start)

def Stmt.checkAll : List Stmt → Check Unit
  | [] => return ()
  | s :: ss => do
    s.check
    Stmt.checkAll ss

/-- Checks the arms of an if statement after the first one. -/
def Branches.check : Branches → Check Unit
  | .done => return ()
  | .otherwise _ body => body.check .new
  | .elseIf pos cond body rest => do
    checkCondition pos .ifWord cond
    body.check .new
    rest.check

end

namespace Program

/-- Checks a program. A fatal report may end the check, but not what follows it. -/
def check (program : Program) : Check Unit := do
  match ← guarded (Stmt.checkAll program) with
  | some () => return ()
  | none => debug s!"check of {(← get).engine.file} stopped at the first fatal error"

/-- The state after the check of a program. -/
def checked (program : Program) (s : State) : State :=
  match check program s with
  | .ok _ s => s
  | .error _ s => s

end Program

end Samo
