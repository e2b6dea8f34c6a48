import Samo.Check.Program
import Samo.Files
import Samo.Syntax.Parser.Stmt
import Samo.Text.Utf8

/-!
# The checker

Checks a text from its bytes to a `Verdict`: read it as UTF-8, parse it, and check the program
against a fresh symbol table. All steps write to one log. A check that cannot even start is a
`Refusal`.
-/

namespace Samo

/-- How to check. -/
structure Options where
  moduleName : String := "main"
  policy : Policy := .stop
  level : Level := .warning
  library : Library := .standard
deriving DecidableEq, Repr

/-- What a check leaves behind. -/
structure Verdict where
  file : String
  symbols : SymbolTable
  functions : List Function
  engine : Engine
deriving DecidableEq, Repr

namespace Verdict

/-- What the checker says of a check that failed. -/
def complaint? (v : Verdict) : Option String :=
  v.engine.failure?.map fun f =>
    s!"check failed with {v.engine.failures} error(s) in {v.file}: {f.text}"

end Verdict

/-- Why nothing can be checked. -/
inductive Refusal where
  | builtins (error : RegistryError)
  | unreadable (location : Location) (fault : FileFault)
deriving DecidableEq, Repr

def Refusal.message : Refusal → String
  | builtins error => s!"failed to register builtins: {error.message}"
  | unreadable location fault => s!"failed to open file: open {location.text}: {fault.text}"

/-- What comes of a check. -/
abbrev Outcome := Except Refusal Verdict

/-- A complaint about an outcome, and whether the program is to blame. -/
structure Complaint where
  text : String
  blamesProgram : Bool
deriving DecidableEq, Repr

/-- The complaint about an outcome, unless all is well. -/
def Outcome.complaint? : Outcome → Option Complaint
  | .error refusal => some ⟨refusal.message, false⟩
  | .ok verdict => verdict.complaint?.map (⟨·, true⟩)

namespace Options

def newLog (o : Options) : Log :=
  Log.debug { label := s!"[Compiler:{o.moduleName}]", level := o.level }
    s!"Creating compiler for module '{o.moduleName}'"

def logSyntaxErrors (file : String) (errors : List SyntaxError) (log : Log) : Log :=
  errors.foldl (fun log e => log.debug s!"{file}:{e.pos.text}: syntax error: {e.fault.message}") log

/-- The state before the check of a file. -/
def initialState (o : Options) (file : String) (builtins : Registry) (log : Log) : Check.State :=
  { symbols := .init builtins, engine := { policy := o.policy, file }, log }

def checkProgram (o : Options) (file : String) (program : Program) : StateM Log Outcome := do
  match Registry.ofLibrary o.library with
  | .error e => return .error (.builtins e)
  | .ok builtins =>
    let s := program.checked (o.initialState file builtins (← get))
    set s.log
    match s.engine.failure? with
    | some f => modify (·.debug s!"check of {file} failed: {f.text}")
    | none => modify (·.info s!"Successfully checked: {file}")
    return .ok ⟨file, s.symbols, s.functions, s.engine⟩

def checkBytes (o : Options) (file : String) (source : Bytes) : StateM Log Outcome := do
  let (program, errors) := parse (Text.decode source)
  modify (logSyntaxErrors file errors)
  o.checkProgram file program

def checkFile (o : Options) (files : Files) (name : String) : StateM Log Outcome := do
  modify (·.info s!"Checking file: {name}")
  let location := files.locate name
  match files.find location with
  | .error fault =>
    let refusal := Refusal.unreadable location fault
    modify (·.error s!"Failed to open file '{name}': {refusal.message}")
    return .error refusal
  | .ok found => o.checkBytes location.text found.content

/-- Checks a text that is held in memory, under a name. -/
def checkText (o : Options) (name : String) (source : Bytes) : StateM Log Outcome := do
  modify (·.debug s!"Checking source string {name} ({source.length} bytes)")
  o.checkBytes name source

/-- Checks a text that was read from somewhere, under a name. -/
def checkInput (o : Options) (name : String) (source : Bytes) : StateM Log Outcome := do
  modify (·.debug s!"Checking source read from {name}")
  o.checkBytes name source

end Options

end Samo
