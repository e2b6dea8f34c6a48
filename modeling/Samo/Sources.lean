import Samo.Checker

/-!
# Sources

The files of one run, each of them once, in the order they were named. A directory stands for the
sources directly in it, in the order of their names.
-/

namespace Samo

/-- Why a name cannot be added. -/
inductive SourceError where
  | unknown (location : Location) (fault : FileFault)
  | noSources (location : Location)
deriving DecidableEq, Repr

def SourceError.message : SourceError → String
  | unknown location fault => s!"stat {location.text}: {fault.text}"
  | noSources location => s!"no source files found in {location.text}"

/-- How the name of a source ends. -/
def sourceExtension : String := ".samo"

/-- The files of a run. -/
structure SourceSet where
  files : List Location
deriving DecidableEq, Repr

namespace SourceSet

/-- No files. -/
def empty : SourceSet := ⟨[]⟩

/-- One more file, unless it is there already. -/
def insert (s : SourceSet) (l : Location) : SourceSet :=
  if l ∈ s.files then s else ⟨s.files ++ [l]⟩

/-- The names of the sources among some entries, in order. -/
def sourceNames (entries : List (String × FileTree)) : List String :=
  let sources := entries.filter fun (name, t) => !t.isDirectory && name.endsWith sourceExtension
  (sources.map (·.1)).mergeSort

/-- Adds what a name stands for: a file, whatever its name, or the sources in a directory. -/
def add (s : SourceSet) (files : Files) (name : String) : Except SourceError SourceSet :=
  let location := files.locate name
  match files.find location with
  | .error fault => .error (.unknown location fault)
  | .ok (.file _) => .ok (s.insert location)
  | .ok (.dir entries) =>
    match sourceNames entries with
    | [] => .error (.noSources location)
    | names => .ok (names.foldl (fun s name => s.insert (location.step name)) s)

/-- Adds names one after the other. The first one that cannot be added is reported. -/
def addAll (s : SourceSet) (files : Files) (names : List String) : Except SourceError SourceSet :=
  names.foldlM (fun s name => s.add files name) s

end SourceSet

namespace Options

/-- Checks files, of which `done` are checked already and `total` there are in all. -/
def checkRest (o : Options) (files : Files) (total : Nat) : Nat → List Location →
    StateM Log (List Outcome)
  | _, [] => return []
  | done, l :: rest => do
    modify (·.debug s!"Checking file {done + 1}/{total}: {l.text}")
    let outcome ← o.checkFile files l.text
    let others ← o.checkRest files total (done + 1) rest
    return outcome :: others

/-- Checks every file of a set, also after one that failed. -/
def checkSources (o : Options) (files : Files) (set : SourceSet) : StateM Log (List Outcome) := do
  modify (·.info s!"Checking {set.files.length} file(s)")
  o.checkRest files set.files.length 0 set.files

end Options

/-- The complaint about several outcomes; it repeats the first one. -/
def Outcome.jointComplaint? (outcomes : List Outcome) : Option Complaint :=
  match outcomes.filterMap Outcome.complaint? with
  | [] => none
  | c :: cs =>
    some { c with text := s!"{cs.length + 1} of {outcomes.length} file(s) failed: {c.text}" }

end Samo
