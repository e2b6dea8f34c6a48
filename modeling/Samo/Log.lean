import Samo.Position
import Samo.Text.Quoted

/-!
# Logging

Messages have a level, and a log writes those at its own level or above, each on a line behind the
log's label. It counts the errors and warnings it wrote. What was written stays in `text` until
`take` takes it out.
-/

namespace Samo

/-- How much a message matters; `silent` is above all messages. -/
inductive Level where
  | debug
  | info
  | warning
  | error
  | silent
deriving DecidableEq, Repr

namespace Level

/-- The place of the level among all. -/
def rank : Level → Nat
  | debug => 0
  | info => 1
  | warning => 2
  | error => 3
  | silent => 4

/-- The word in front of a message. No message is silent. -/
def word : Level → String
  | debug => "DEBUG"
  | info => "INFO"
  | warning => "WARN"
  | error => "ERROR"
  | silent => ""

def ofName? : String → Option Level
  | "debug" => some debug
  | "info" => some info
  | "warn" => some warning
  | "warning" => some warning
  | "error" => some error
  | "silent" => some silent
  | "off" => some silent
  | _ => none

/-- What to say of a name that is no level's. -/
def unknown (name : String) : String := s!"unknown log level {Text.quote name}"

end Level

/-- What was written, with counts. -/
structure Log where
  label : String
  level : Level
  text : String := ""
  errors : Nat := 0
  warnings : Nat := 0
deriving DecidableEq, Repr

namespace Log

/-- Whether a message of this level is written. -/
def writes (l : Log) (level : Level) : Bool := l.level.rank ≤ level.rank

/-- Writes a message if its level is high enough. -/
def write (l : Log) (level : Level) (message : String) : Log :=
  if l.writes level then
    let l := { l with text := l.text ++ s!"{l.label} [{level.word}] {message}\n" }
    match level with
    | .error => { l with errors := l.errors + 1 }
    | .warning => { l with warnings := l.warnings + 1 }
    | _ => l
  else l

def debug (l : Log) (message : String) : Log := l.write .debug message

def info (l : Log) (message : String) : Log := l.write .info message

def warning (l : Log) (message : String) : Log := l.write .warning message

def error (l : Log) (message : String) : Log := l.write .error message

/-- A message about a place in a file. -/
def located (file : String) (pos : Pos) (message : String) : String :=
  s!"{file}:{pos.text}: {message}"

def hasErrors (l : Log) : Bool := l.errors > 0

/-- Starts counting again. -/
def reset (l : Log) : Log := { l with errors := 0, warnings := 0 }

/-- Writes how many errors and warnings there were, if there were any. -/
def summarise (l : Log) : Log :=
  if l.errors > 0 || l.warnings > 0 then
    let errors := if l.errors > 0 then s!"  Errors: {l.errors}\n" else ""
    let warnings := if l.warnings > 0 then s!"  Warnings: {l.warnings}\n" else ""
    { l with text := l.text ++ s!"\n{l.label} Check Summary:\n{errors}{warnings}" }
  else l

/-- Takes out what was written. -/
def take (l : Log) : String × Log := (l.text, { l with text := "" })

end Log

end Samo
