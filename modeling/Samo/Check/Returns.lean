import Samo.Check.Typing

/-!
# Returns

`Block.visitScoped` visits the statements below a block in order, each in the scope that was
registered for the block around it; the bodies of functions among them are left out.
`checkReturns` uses it to compare every return of a function with what the function is to return.
-/

namespace Samo

open Check

mutual

/-- Visits a statement, then the ones in it, and collects what the visits give. -/
def Stmt.visitScoped {α : Type} (visit : Stmt → Check (List α)) : Stmt → Check (List α)
  | s@(.block b) => do
    let here ← visit s
    let below ← b.visitScoped visit
    return here ++ below
  | s@(.branch _ _ body rest) => do
    let here ← visit s
    let first ← visit (.block body)
    let below ← body.visitScoped visit
    let others ← rest.visitScoped visit
    return here ++ first ++ below ++ others
  | s@(.loop _ _ body) => do
    let here ← visit s
    let first ← visit (.block body)
    let below ← body.visitScoped visit
    return here ++ first ++ below
  | s@(.maybe _ _ body) => do
    let here ← visit s
    let below ← body.visitScoped visit
    return here ++ below
  | s@(.maybeOtherwise _ _ body _ alternative) => do
    let here ← visit s
    let below ← body.visitScoped visit
    let others ← alternative.visitScoped visit
    return here ++ below ++ others
  | s => visit s

/-- Visits the statements of a block in its scope. -/
def Block.visitScoped {α : Type} (visit : Stmt → Check (List α)) : Block → Check (List α)
  | .mk start _ stmts => inScopeOf start (Stmt.visitAllScoped visit stmts)

def Stmt.visitAllScoped {α : Type} (visit : Stmt → Check (List α)) : List Stmt → Check (List α)
  | [] => return []
  | s :: ss => do
    let here ← s.visitScoped visit
    let others ← Stmt.visitAllScoped visit ss
    return here ++ others

def Branches.visitScoped {α : Type} (visit : Stmt → Check (List α)) : Branches → Check (List α)
  | .done => return []
  | .otherwise _ body => do
    let here ← visit (.block body)
    let below ← body.visitScoped visit
    return here ++ below
  | .elseIf _ _ body rest => do
    let here ← visit (.block body)
    let below ← body.visitScoped visit
    let others ← rest.visitScoped visit
    return here ++ below ++ others

end

namespace Check

/-- Whether a return gives what the function is to return, with a report if it does not. -/
def checkReturn (pos : Pos) (ret : Ty) : Option Expr → Check Bool
  | none => do
    if ret = .void then return true
    else
      error pos (.returnMissing ret)
      return false
  | some value => do
    if ret = .void then
      error pos .returnFromVoid
      return false
    else
      let d ← value.detect
      if !d.homogeneous then
        error pos .returnMixed
        return false
      else if d.type ≠ ret then
        error pos (.returnType ret d.type)
        return false
      else
        let valid ← ret.value?.elim (pure false) value.accepts
        if !valid then
          error pos (.returnInvalid ret)
          return false
        else checkConstant value

/-- What there is to check at a statement: a return. -/
def checkIfReturn (ret : Ty) : Stmt → Check (List Bool)
  | .returnWith pos value => return [← checkReturn pos ret value]
  | _ => return []

/-- Whether every return of a body is right, and whether it returns at all if it has to. -/
def checkReturns (namePos : Pos) (ret : Ty) (body : Block) : Check Bool := do
  let verdicts ← body.visitScoped (checkIfReturn ret)
  if ret ≠ .void && verdicts.isEmpty then
    error namePos (.noReturn ret)
    return false
  else return verdicts.all id

end Check

end Samo
