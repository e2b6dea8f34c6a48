import Samo.Text.Quoted

/-!
# Flags

Reads the arguments of the command up to the first one that is no flag. A flag starts with one dash
or two. A switch may give its value after an equals sign; the level may also be the next argument.
-/

namespace Samo

/-- What the flags say. -/
structure Flags where
  debug : Bool := false
  collect : Bool := false
  quiet : Bool := false
  version : Bool := false
  interactive : Bool := false
  level : String := "warning"
deriving DecidableEq, Repr

/-- A flag: one that is on or off, or the one that takes a level. -/
inductive Flag where
  | switch (set : Bool → Flags → Flags)
  | level

namespace Flag

def ofName? : String → Option Flag
  | "d" => some debug
  | "debug" => some debug
  | "collect" => some (switch fun b f => { f with collect := b })
  | "q" => some (switch fun b f => { f with quiet := b })
  | "v" => some version
  | "version" => some version
  | "i" => some (switch fun b f => { f with interactive := b })
  | "log" => some level
  | _ => none
where
  debug : Flag := switch fun b f => { f with debug := b }
  version : Flag := switch fun b f => { f with version := b }

end Flag

/-- What is wrong with the arguments; to ask for help counts too. -/
inductive FlagError where
  | help
  | badForm (argument : String)
  | undefined (name : String)
  | notBoolean (name value : String)
  | noValue (name : String)
deriving DecidableEq, Repr

/-- The report on the arguments. Help needs none. -/
def FlagError.message? : FlagError → Option String
  | help => none
  | badForm argument => some s!"bad flag syntax: {argument}"
  | undefined name => some s!"flag provided but not defined: -{name}"
  | notBoolean name value =>
    some s!"invalid boolean value {Text.quote value} for -{name}: parse error"
  | noValue name => some s!"flag needs an argument: -{name}"

/-- The truth value that a word stands for. -/
def Flags.boolean? (word : String) : Option Bool :=
  if word ∈ ["1", "t", "T", "TRUE", "true", "True"] then some true
  else if word ∈ ["0", "f", "F", "FALSE", "false", "False"] then some false
  else none

/-- What an argument is: a name, which ends the flags, the mark that ends them, or a flag. -/
inductive Argument where
  | name
  | mark
  | bad
  | flag (name : String) (value : Option String)
deriving DecidableEq, Repr

namespace Argument

/-- A flag's name and its value, after the dashes. The first character is part of the name. -/
def ofFlag (c : Char) (cs : List Char) : Argument :=
  let name := c :: cs.takeWhile (· ≠ '=')
  let value := match cs.dropWhile (· ≠ '=') with
    | [] => none
    | _ :: value => some (String.ofList value)
  flag (String.ofList name) value

/-- What an argument is. -/
def ofText (argument : String) : Argument :=
  match argument.toList with
  | ['-'] => name
  | ['-', '-'] => mark
  | '-' :: '-' :: c :: cs => if c = '-' || c = '=' then bad else ofFlag c cs
  | '-' :: c :: cs => if c = '=' then bad else ofFlag c cs
  | _ => name

end Argument

/-- Reads the flags from the front of the arguments, up to the first name. -/
def Flags.read (f : Flags) : List String → Except FlagError (Flags × List String)
  | [] => .ok (f, [])
  | argument :: rest =>
    match Argument.ofText argument with
    | .name => .ok (f, argument :: rest)
    | .mark => .ok (f, rest)
    | .bad => .error (.badForm argument)
    | .flag name value =>
      match Flag.ofName? name, value with
      | none, _ => .error (if name = "help" || name = "h" then .help else .undefined name)
      | some (.switch set), none => (set true f).read rest
      | some (.switch set), some value =>
        match Flags.boolean? value with
        | some b => (set b f).read rest
        | none => .error (.notBoolean name value)
      | some .level, some value => Flags.read { f with level := value } rest
      | some .level, none =>
        match rest with
        | [] => .error (.noValue name)
        | value :: rest => Flags.read { f with level := value } rest

def usage : String :=
  "Usage: samoc [flags] <file|dir>...\n" ++
  "       samoc [flags] -\n" ++
  "       samoc -i\n" ++
  "\nFlags:\n" ++
  "  -collect\n    \tkeep checking after the first fatal error\n" ++
  "  -d\tlog every step of the check\n" ++
  "  -debug\n    \tlog every step of the check\n" ++
  "  -i\tstart an interactive session\n" ++
  "  -log string\n" ++
  "    \tlowest level logged: debug, info, warning, error or silent (default \"warning\")\n" ++
  "  -q\tprint nothing; report through the exit code only\n" ++
  "  -v\tprint the version and exit\n" ++
  "  -version\n    \tprint the version and exit\n" ++
  "\nExamples:\n" ++
  "  samoc program.samo          # Check one file\n" ++
  "  samoc -collect src/         # Check every file, listing all errors\n" ++
  "  samoc -log info - < a.samo  # Check standard input\n"

end Samo
