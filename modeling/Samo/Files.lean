import Samo.Text.Utf8

/-!
# Files

A tree of files and the names of places in it. A name is resolved against a directory without
looking at the tree: two dots take away one step, whatever stands there.
-/

namespace Samo

/-- A place in a tree of files: the steps from its root. -/
structure Location where
  parts : List String
deriving DecidableEq, Repr

namespace Location

def root : Location := ⟨[]⟩

/-- How the place is written. -/
def text (l : Location) : String := "/" ++ "/".intercalate l.parts

/-- One part of a name: stay, go up, or go down. -/
def step (l : Location) (part : String) : Location :=
  if part = "" || part = "." then l
  else if part = ".." then ⟨l.parts.dropLast⟩
  else ⟨l.parts ++ [part]⟩

/-- The place that a name stands for in a directory. -/
def resolve (directory : Location) (name : String) : Location :=
  (name.splitOn "/").foldl step (if name.startsWith "/" then root else directory)

/-- The name of the place in its directory. -/
def name (l : Location) : String := l.parts.getLastD "/"

/-- The name without its extension, the part from the last dot on. -/
def stem (l : Location) : String :=
  match (l.name.splitOn ".").dropLast with
  | [] => l.name
  | parts => ".".intercalate parts

end Location

/-- Why there is nothing at a place. -/
inductive FileFault where
  | missing
  | notDirectory
deriving DecidableEq, Repr

/-- How a fault reads. -/
def FileFault.text : FileFault → String
  | missing => "no such file or directory"
  | notDirectory => "not a directory"

/-- A file with its bytes, or a directory with its entries. -/
inductive FileTree where
  | file (content : Bytes)
  | dir (entries : List (String × FileTree))

namespace FileTree

def empty : FileTree := dir []

/-- What stands at the end of some steps. -/
def find : FileTree → List String → Except FileFault FileTree
  | t, [] => .ok t
  | file _, _ :: _ => .error .notDirectory
  | dir entries, part :: parts =>
    match entries.lookup part with
    | some t => t.find parts
    | none => .error .missing

/-- Changes what stands at the end of some steps. Directories that are missing are made. -/
def update (f : FileTree → FileTree) : List String → FileTree → FileTree
  | [], t => f t
  | _ :: _, file content => file content
  | part :: parts, dir entries =>
    match entries.lookup part with
    | some t =>
      let t := update f parts t
      dir (entries.map fun (name, old) => (name, if name = part then t else old))
    | none => dir (entries ++ [(part, update f parts empty)])

def isDirectory : FileTree → Bool
  | file _ => false
  | dir _ => true

/-- What there is to read. A directory reads as nothing. -/
def content : FileTree → Bytes
  | file content => content
  | dir _ => []

def entries : FileTree → List (String × FileTree)
  | file _ => []
  | dir entries => entries

end FileTree

/-- A tree of files and the directory that names are resolved in. -/
structure Files where
  tree : FileTree
  directory : Location

namespace Files

/-- No files, but for the directory itself. -/
def empty (directory : Location) : Files :=
  ⟨FileTree.empty.update id directory.parts, directory⟩

/-- The place that a name stands for. -/
def locate (f : Files) (name : String) : Location := f.directory.resolve name

/-- What stands at a place. -/
def find (f : Files) (l : Location) : Except FileFault FileTree := f.tree.find l.parts

/-- Writes a file, and makes the directories around it. -/
def write (f : Files) (name : String) (content : Bytes) : Files :=
  { f with tree := f.tree.update (fun _ => .file content) (f.locate name).parts }

/-- Makes a directory, unless there is one. -/
def makeDirectory (f : Files) (name : String) : Files :=
  { f with tree := f.tree.update id (f.locate name).parts }

end Files

end Samo
