import Samo.CommandLine.Flags
import Samo.Repl
import Samo.Sources

/-!
# The command line

The arguments ask for something (`Plan.ofArguments`), which is then done on a tree of files:
`Plan.run` gives everything that is shown, the exit code and the history. The exit code is 0 if
every source passed, 1 if one failed or could not be read, and 2 if the arguments are wrong.
-/

namespace Samo

/-! ## Plans -/

/-- What a run leaves behind. -/
structure Report where
  code : Nat
  shown : Shown := {}
deriving DecidableEq, Repr

/-- What the arguments ask for. -/
inductive Plan where
  | finish (report : Report)
  | interactive (options : Options)
  | input (options : Options) (quiet : Bool)
  | sources (options : Options) (quiet : Bool) (names : List String)
deriving DecidableEq, Repr

namespace Plan

/-- Ends with a message about the arguments. -/
def misuse (message : String) : Plan := finish ⟨2, ⟨"", message⟩⟩

/-- The options of the checker, if the flags name a level. -/
def options (f : Flags) (level : Level) : Options :=
  { policy := if f.collect then .collect else .stop
    level := if f.quiet then .silent else if f.debug then .debug else level }

/-- What the arguments ask for. -/
def ofArguments (arguments : List String) : Plan :=
  match Flags.read {} arguments with
  | .error e => misuse (e.message?.elim "" (· ++ "\n") ++ usage)
  | .ok (f, names) =>
    if f.version then finish ⟨0, ⟨s!"samoc {Samo.version}\n", ""⟩⟩
    else
      match Level.ofName? f.level with
      | none => misuse s!"Error: {Level.unknown f.level}\n"
      | some level =>
        let o := options f level
        if f.interactive then interactive { o with moduleName := "repl" }
        else
          match names with
          | [] => misuse usage
          | ["-"] => input { o with moduleName := "stdin" } f.quiet
          | names => sources o f.quiet names

end Plan

/-! ## Runs -/

/-- Writes the failures of a file to the log. Warnings are there already. -/
def Verdict.report (v : Verdict) (log : Log) : Log :=
  let failures := v.engine.diagnostics.filter fun d => d.severity = .fatal || d.severity = .error
  failures.foldl (fun log d => log.error (Log.located v.file d.pos d.message)) log

namespace Report

/-- The end of a run: failures, a summary, and what there is to say beyond the log. -/
def conclude (quiet : Bool) (outcomes : List Outcome) (complaint : Option Complaint) (log : Log) :
    Report :=
  let verdicts := outcomes.filterMap (·.toOption)
  let log := (verdicts.foldl (fun log v => v.report log) log).summarise
  match complaint with
  | some c =>
    let more := if quiet || c.blamesProgram then "" else s!"Error: {c.text}\n"
    ⟨1, ⟨"", log.text ++ more⟩⟩
  | none => ⟨0, ⟨if quiet then "" else s!"✓ {outcomes.length} file(s) checked\n", log.text⟩⟩

/-- Checks the standard input. -/
def ofInput (o : Options) (quiet : Bool) (input : Bytes) : Report :=
  let (outcome, log) := o.checkInput "<stdin>" input o.newLog
  conclude quiet [outcome] outcome.complaint? log

/-- Checks files. A single file gives its name to the log. -/
def ofSources (o : Options) (quiet : Bool) (names : List String) (files : Files) : Report :=
  match SourceSet.empty.addAll files names with
  | .error e => ⟨1, ⟨"", if quiet then "" else s!"Error: {e.message}\n"⟩⟩
  | .ok set =>
    let o := match set.files with
      | [l] => { o with moduleName := l.stem }
      | _ => o
    let (outcomes, log) := o.checkSources files set o.newLog
    conclude quiet outcomes (Outcome.jointComplaint? outcomes) log

end Report

/-- Runs a plan, with the bytes of the history file: the report, and the history file after it. -/
def Plan.run (files : Files) (input : Bytes) (history : Option Bytes) :
    Plan → Report × Option Bytes
  | .finish report => (report, history)
  | .interactive o =>
    let (shown, after) := Repl.run o (history.elim [] History.ofBytes) input
    (⟨0, shown⟩, some after.bytes)
  | .input o quiet => (.ofInput o quiet input, history)
  | .sources o quiet names => (.ofSources o quiet names files, history)

end Samo
