import Samo.Position

/-!
# Diagnostics

What a check has to say. The `Engine` records diagnostics in the order of their first report, each
of them once, and counts them. Under the policy `stop` a fatal report also halts the check, and
`guarded` is where a halted check ends.
-/

namespace Samo

/-- How bad it is. -/
inductive Severity where
  | fatal
  | error
  | warning
  | info
deriving DecidableEq, Repr

/-- The word for a severity; fatal reports are errors too. -/
def Severity.text : Severity → String
  | fatal | error => "Error"
  | warning => "Warning"
  | info => "Info"

/-- Whether the first fatal report ends the check. -/
inductive Policy where
  | stop
  | collect
deriving DecidableEq, Repr

/-- One thing to say about a place in a file. -/
structure Diagnostic where
  severity : Severity
  message : String
  pos : Pos
  file : String
deriving DecidableEq, Repr

/-- The diagnostic on one line. A file without a name is not mentioned. -/
def Diagnostic.text (d : Diagnostic) : String :=
  let place := if d.file = "" then "" else s!"{d.file}:{d.pos.text}: "
  s!"{place}[{d.severity.text}, Line {d.pos.line}] {d.message}"

/-- A check that failed, with the diagnostics that made it fail. -/
structure Failure where
  diagnostics : List Diagnostic
deriving DecidableEq, Repr

namespace Failure

/-- The diagnostic to show if only one is shown. -/
def first (f : Failure) : Diagnostic := f.diagnostics.headD ⟨.fatal, "", .nowhere, ""⟩

/-- The failure on one line. -/
def text (f : Failure) : String :=
  match f.diagnostics with
  | [] => "compilation failed"
  | [d] => d.text
  | d :: rest => s!"{d.text} (and {rest.length} more error(s))"

end Failure

/-- What was recorded so far, with counts. -/
structure Engine where
  policy : Policy
  file : String := ""
  diagnostics : List Diagnostic := []
  fatals : Nat := 0
  errors : Nat := 0
  warnings : Nat := 0
deriving DecidableEq, Repr

namespace Engine

/-- Counts one more diagnostic. -/
def count (e : Engine) : Severity → Engine
  | .fatal => { e with fatals := e.fatals + 1 }
  | .error => { e with errors := e.errors + 1 }
  | .warning => { e with warnings := e.warnings + 1 }
  | .info => e

/-- Records a diagnostic on the current file, unless the same one was recorded before. -/
def record (e : Engine) (severity : Severity) (pos : Pos) (message : String) : Engine :=
  let d : Diagnostic := ⟨severity, message, pos, e.file⟩
  if d ∈ e.diagnostics then e
  else { e.count severity with diagnostics := e.diagnostics ++ [d] }

/-- The number of fatal reports and errors. -/
def failures (e : Engine) : Nat := e.fatals + e.errors

def hasFailed (e : Engine) : Bool := e.fatals > 0 || e.errors > 0

/-- The failure, if there is one: fatal reports first, then errors. -/
def failure? (e : Engine) : Option Failure :=
  if e.hasFailed then
    some ⟨e.diagnostics.filter (·.severity = .fatal) ++ e.diagnostics.filter (·.severity = .error)⟩
  else none

end Engine

/-- Why a check ends early: a fatal report, or something that is no report at all. -/
inductive Halt where
  | fatal
  | foreign (message : String)
deriving DecidableEq, Repr

/-- Ends where a fatal report halts the action. Says what the action gave, if it got to its end. -/
def guarded {σ α : Type} (action : EStateM Halt σ α) : EStateM Halt σ (Option α) := fun s =>
  match action s with
  | .ok a s => .ok (some a) s
  | .error .fatal s => .ok none s
  | .error (.foreign message) s => .error (.foreign message) s

/-- Something that reports. -/
abbrev Reporter := EStateM Halt Engine

namespace Reporter

/-- A fatal report. Under the policy `stop` it halts, whether it is new or not. -/
def fatal (pos : Pos) (message : String) : Reporter Unit := do
  modify (·.record .fatal pos message)
  if (← get).policy = .stop then throw .fatal

def error (pos : Pos) (message : String) : Reporter Unit := modify (·.record .error pos message)

def warning (pos : Pos) (message : String) : Reporter Unit := modify (·.record .warning pos message)

end Reporter

end Samo
