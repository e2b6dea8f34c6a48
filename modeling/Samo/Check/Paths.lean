import Samo.Check.Typing

/-!
# Control paths

A `Path` is the shape of a body as far as returning goes: runs of statements without branches,
branches and loops. `Path.returns` says whether every way through it returns. `Stmt.trace` reads the
shape off the statements, in the scopes that were registered for their blocks.
-/

namespace Samo

/-- The shape of some statements. -/
inductive Path where
  /-- Statements without branches. -/
  | stray (returns : Bool)
  /-- One after the other. -/
  | block (children : List Path)
  /-- One of several; none of them too, unless that is excluded. -/
  | branch (exhaustive : Bool) (arms : List Path)
  /-- Any number of times. -/
  | loop (body : List Path)
deriving Repr, Inhabited

mutual

/--
Whether every way through the shape returns. A sequence returns when one of its steps does. A branch
has to be exhaustive with every arm returning. A loop may not run at all.
-/
def Path.returns : Path → Bool
  | .stray returns => returns
  | .block children => Path.anyReturns children
  | .branch exhaustive arms => exhaustive && Path.allReturn arms
  | .loop _ => false

def Path.anyReturns : List Path → Bool
  | [] => false
  | p :: ps => p.returns || Path.anyReturns ps

def Path.allReturn : List Path → Bool
  | [] => true
  | p :: ps => p.returns && Path.allReturn ps

end

namespace Path

theorem anyReturns_eq_any (ps : List Path) : anyReturns ps = ps.any returns := by
  induction ps with
  | nil => rfl
  | cons p ps ih => simp [anyReturns, ih]

end Path

/-! ## Reading the shape off the statements -/

/-- The steps so far, and whether the statements since the last of them return. -/
structure Trail where
  steps : List Path
  returned : Bool
deriving Repr

namespace Trail

/-- Nothing yet. -/
def start : Trail := ⟨[], false⟩

/-- A branch or a loop ends a run of statements and starts the next one. -/
def push (t : Trail) (p : Path) : Trail := ⟨t.steps ++ [.stray t.returned, p], false⟩

/-- The steps with the last run of statements. -/
def close (t : Trail) : List Path := t.steps ++ [.stray t.returned]

end Trail

open Check

/-- Whether a return gives what the function is to return. -/
def Check.returnMatches (ret : Ty) : Option Expr → Check Bool
  | none => return ret = .void
  | some value => do
    let d ← value.detect
    return d.homogeneous && d.type = ret

mutual

/-- Goes on along a statement. A block in a row of statements is a part of the row. -/
def Stmt.trace (ret : Ty) : Stmt → Trail → Check Trail
  | .returnWith _ value, t => do
    if t.returned then return t
    else if ← returnMatches ret value then return { t with returned := true }
    else return t
  | .block b, t => b.trace ret t
  | .branch _ _ body rest, t => do
    let first ← body.trace ret .start
    let others ← rest.trace ret
    return t.push (.branch rest.last?.isSome (.block first.close :: others))
  | .loop _ _ body, t => do
    let body ← body.trace ret .start
    return t.push (.loop body.close)
  | .maybe _ _ body, t => do
    let body ← body.trace ret .start
    return t.push (.branch false [.block body.close])
  | .maybeOtherwise _ _ body _ alternative, t => do
    let body ← body.trace ret .start
    let alternative ← alternative.trace ret .start
    return t.push (.branch true [.block body.close, .block alternative.close])
  | .declare .., t | .infer .., t | .assign .., t | .call .., t | .define .., t | .breakOut .., t
  | .continueOn .., t | .needs .., t | .bad .., t => return t

/-- Goes on along the statements of a block, in its scope. -/
def Block.trace (ret : Ty) : Block → Trail → Check Trail
  | .mk start _ stmts, t => inScopeOf start (Stmt.traceAll ret stmts t)

/-- Goes on along some statements. -/
def Stmt.traceAll (ret : Ty) : List Stmt → Trail → Check Trail
  | [], t => return t
  | s :: ss, t => do
    let t ← s.trace ret t
    Stmt.traceAll ret ss t

/-- The shapes of the arms after the first one. -/
def Branches.trace (ret : Ty) : Branches → Check (List Path)
  | .done => return []
  | .otherwise _ body => do
    let body ← body.trace ret .start
    return [.block body.close]
  | .elseIf _ _ body rest => do
    let body ← body.trace ret .start
    let others ← rest.trace ret
    return .block body.close :: others

end

namespace Block

/-- The shape of a body, whose returns are to give a value of the type. -/
def path (ret : Ty) (body : Block) : Check Path := do
  let t ← body.trace ret .start
  return .block t.close

/-- Whether every way through a body returns. If there is nothing to return, nothing is asked. -/
def returnsOnAllPaths (ret : Ty) (body : Block) : Check Bool := do
  if ret = .void then return true
  else return (← body.path ret).returns

end Block

end Samo
