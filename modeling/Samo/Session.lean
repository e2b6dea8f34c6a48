import Samo.Checker
import Samo.Text.Lines

/-!
# Sessions

A session holds a program that grows by entries. An entry is accepted if the program with the entry
passes the check; otherwise the session stays as it was. What the check says about the entry is
shown with lines counted from the entry's start.
-/

namespace Samo

/-- The program so far, its number of lines, and the verdict on it. -/
structure Session where
  options : Options
  log : Log
  program : Bytes := []
  lines : Nat := 0
  last : Option Verdict := none
deriving DecidableEq, Repr

namespace Session

/-- A session without a program. It shows diagnostics itself, so it logs only to debug. -/
def create (o : Options) : Session :=
  let o := { o with level := if o.level = .debug then .debug else .silent }
  { options := o, log := o.newLog }

/-! ## Entries -/

/-- The diagnostics below the first lines, with lines counted from there. -/
def entryDiagnostics (lines : Nat) (ds : List Diagnostic) : List Diagnostic :=
  (ds.filter fun d => (lines : Int) < d.pos.line).map fun d =>
    { d with pos := { d.pos with line := d.pos.line - lines } }

/-- One line for each diagnostic. -/
def listing (ds : List Diagnostic) : String := String.join (ds.map (·.text ++ "\n"))

/-- Checks an entry: whether it is accepted, what to show, and the session after it. -/
def eval (s : Session) (entry : Bytes) : Bool × String × Session :=
  let candidate := s.program ++ entry ++ [Text.lineFeed]
  let (outcome, log) := s.options.checkText "<repl>" candidate s.log
  let s := { s with log }
  match outcome with
  | .error _ => (false, "", s)
  | .ok verdict =>
    let shown := listing (entryDiagnostics s.lines verdict.engine.diagnostics)
    if verdict.engine.hasFailed then (false, shown, s)
    else
      let lines := s.lines + entry.count Text.lineFeed + 1
      (true, shown, { s with program := candidate, lines, last := some verdict })

/-! ## Commands -/

/-- What a session can be told. -/
inductive Command where
  | quit
  | reset
  | symbols
  | unknown
deriving DecidableEq, Repr

/-- The small letter for a letter that has one among the letters of commands. -/
def smallLetter (c : Char) : Char :=
  if c = 'İ' then 'i' else c.toLower

/-- The command that a text stands for. Letters may be capital. -/
def Command.ofText (cs : List Char) : Command :=
  match String.ofList (cs.map smallLetter) with
  | ":quit" => quit
  | ":reset" => reset
  | ":symbols" => symbols
  | _ => unknown

/-- How a value is shown. -/
def showValue : Value → String
  | .int n => toString n.toInt
  | .string s => Text.quote s
  | .boolie b => if b then "true" else "false"

/-- How a symbol is shown: a function with its signature, a variable with its value if known. -/
def showSymbol : Symbol → String
  | .fn f => s!"  fn {f.name}{formatParams f.paramTys} {f.returns.name}\n"
  | .var v =>
    let value := if v.known then " = " ++ showValue v.value else ""
    s!"  {v.type.name} {v.name}{value}\n"

/-- The global symbols of the program, by name. -/
def showSymbols (s : Session) : String :=
  match s.last with
  | none => "no symbols yet\n"
  | some verdict =>
    String.join ((verdict.symbols.sortedAt .global).map showSymbol)

/-- Runs a command: whether the session is to end, what to show, and the session after it. -/
def command (s : Session) (cs : List Char) : Bool × String × Session :=
  match Command.ofText cs with
  | .quit => (true, "", s)
  | .reset => (false, "program cleared\n", { s with program := [], lines := 0, last := none })
  | .symbols => (false, s.showSymbols, s)
  | .unknown => (false, "unknown command. Type :quit to exit.\n", s)

end Session

end Samo
