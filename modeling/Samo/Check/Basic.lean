import Samo.Check.Problem
import Samo.Constant
import Samo.Diagnostic
import Samo.Log
import Samo.SymbolTable

/-!
# The state of a check

A check reads a program from its start to its end and changes one `State`: the symbol table, what
was reported and logged, and where in the program it is. It can be halted by a fatal report; the
state is then the one at that moment, after everything on the way out was undone by `ensuring`.
-/

namespace Samo

namespace Check

/-- Everything a check knows while it runs. -/
structure State where
  symbols : SymbolTable
  engine : Engine
  log : Log
  functions : List Function := []
  currentFunction : Option Function := none
  loopDepth : Nat := 0
  uncertainDepth : Nat := 0
deriving DecidableEq, Repr

end Check

/-- A step of a check. -/
abbrev Check := EStateM Halt Check.State

namespace Check

/-! ## Parts of the state -/

def symbols : Check SymbolTable := return (← get).symbols

def modifySymbols (f : SymbolTable → SymbolTable) : Check Unit :=
  modify fun s => { s with symbols := f s.symbols }

def modifyLog (f : Log → Log) : Check Unit := modify fun s => { s with log := f s.log }

/-- A log line for those who look for the reason of something. -/
def debug (message : String) : Check Unit := modifyLog (·.debug message)

/-- What a name stands for here. -/
def lookup (name : String) : Check (Option Symbol) := return (← symbols).lookup name

/-! ## Reports -/

/-- Reports to the engine of the check. -/
def reporting {α : Type} (r : Reporter α) : Check α := fun s =>
  match r s.engine with
  | .ok a engine => .ok a { s with engine }
  | .error h engine => .error h { s with engine }

/-- A fatal report. It is logged each time, also when it is recorded already. -/
def fatal (pos : Pos) (p : Problem) : Check Unit := do
  debug s!"fatal at {pos.text}: {p.message}"
  reporting (Reporter.fatal pos p.message)

def error (pos : Pos) (p : Problem) : Check Unit := reporting (Reporter.error pos p.message)

def warn (pos : Pos) (p : Problem) : Check Unit := do
  let file := (← get).engine.file
  modifyLog (·.warning (Log.located file pos p.message))
  reporting (Reporter.warning pos p.message)

/-! ## Control -/

/-- Runs an action and then changes the state, also if the action is halted. -/
def ensuring {α : Type} (action : Check α) (after : State → State) : Check α := fun s =>
  match action s with
  | .ok a s => .ok a (after s)
  | .error h s => .error h (after s)

/-- Runs an action in the scope of a block that was checked before; elsewhere, where it stands. -/
def inScopeOf {α : Type} (start : Pos) (action : Check α) : Check α := fun s =>
  match s.symbols.goTo? start with
  | none => action s
  | some symbols =>
    ensuring action (fun s => { s with symbols := s.symbols.restore }) { s with symbols }

/-- Whether folding the expression goes well. If it does not, that is fatal. -/
def checkConstant (e : Expr) : Check Bool := do
  match e.foldError? with
  | none => return true
  | some .divisionByZero =>
    fatal e.start .divisionByZero
    return false

end Check

end Samo
