import Samo.Symbol

/-!
# Built-in functions

Functions that every program can call. One name can have several overloads, which differ in their
parameters and agree in their result. A `Registry` is built from a list of signatures by
`Registry.ofLibrary`, which refuses a list that breaks these rules.
-/

namespace Samo

/-- An overload as a library lists it. -/
structure Signature where
  name : String
  params : List Ty
  returns : Ty
deriving DecidableEq, Repr

/-- The signature in letters, behind its name. -/
def Signature.text (s : Signature) : String := s.name ++ descriptor s.params s.returns

/-- The signatures that a program may rely on. -/
abbrev Library := List Signature

/-- The library of the language. -/
def Library.standard : Library :=
  [⟨"putout", [.value .int], .void⟩,
    ⟨"putout", [.value .boolie], .void⟩,
    ⟨"putout", [.value .string], .void⟩,
    ⟨"putinInt", [], .value .int⟩,
    ⟨"putinBoolie", [], .value .boolie⟩,
    ⟨"putinString", [], .value .string⟩,
    ⟨"stoi", [.value .string], .value .int⟩,
    ⟨"itos", [.value .int], .value .string⟩]

/-- Why a signature is refused. -/
inductive RegistryError where
  | parameter (name : String) (index : Nat) (type : Ty)
  | result (error : ResultError)
  | resultDiffers (name : String) (first : TypeName) (type : TypeName)
  | duplicate (name : String) (params : List Ty)
deriving DecidableEq, Repr

def RegistryError.message : RegistryError → String
  | parameter name index type => s!"builtin {name}: parameter {index} has invalid type {type.name}"
  | result error => s!"builtin {error.name}: {error.message}"
  | resultDiffers name first type =>
    s!"builtin {name}: overloads must share return type {first.name}, got {type.name}"
  | duplicate name params => s!"builtin {name}: duplicate overload {formatParams params}"

/-- The parameters of a built-in function, named by their places from `index` on. -/
def Signature.parameters (name : String) : Nat → List Ty → Except RegistryError (List Parameter)
  | _, [] => .ok []
  | index, t :: ts =>
    match t.value? with
    | none => .error (.parameter name index t)
    | some type => do
      let rest ← parameters name (index + 1) ts
      .ok (⟨s!"arg{index}", type⟩ :: rest)

/-- The function that a signature describes. -/
def Signature.function (s : Signature) : Except RegistryError Function := do
  let params ← Signature.parameters s.name 0 s.params
  match Function.create s.name 0 params s.returns with
  | .ok f => .ok f
  | .error e => .error (.result e)

/-- The overloads of one name, the first one apart. -/
structure Overloads where
  first : Function
  more : List Function
deriving DecidableEq, Repr

namespace Overloads

/-- Every overload, in the order of registration. -/
def all (o : Overloads) : List Function := o.first :: o.more

def add (o : Overloads) (f : Function) : Overloads := { o with more := o.more ++ [f] }

end Overloads

/-- The built-in functions by name, in the order of registration. -/
structure Registry where
  groups : List (String × Overloads)
deriving DecidableEq, Repr

/-- More than one overload fits a descriptor. -/
structure Ambiguous where
  name : String
  descriptor : String
deriving DecidableEq, Repr

def Ambiguous.message (a : Ambiguous) : String :=
  s!"ambiguous builtin overload: {a.name}{a.descriptor}"

namespace Registry

def empty : Registry := ⟨[]⟩

def overloads? (r : Registry) (name : String) : Option Overloads := r.groups.lookup name

/-- Every overload of a name. -/
def overloads (r : Registry) (name : String) : List Function :=
  (r.overloads? name).elim [] Overloads.all

def contains (r : Registry) (name : String) : Bool := (r.overloads? name).isSome

def names (r : Registry) : List String := r.groups.map (·.1)

/-- Puts an overload behind the others of its name. -/
def extend (r : Registry) (f : Function) : Registry :=
  ⟨r.groups.map fun (name, o) => (name, if name = f.name then o.add f else o)⟩

/-- Adds one signature. -/
def register (r : Registry) (s : Signature) : Except RegistryError Registry := do
  let f ← s.function
  match r.overloads? s.name with
  | none => .ok ⟨r.groups ++ [(s.name, ⟨f, []⟩)]⟩
  | some o =>
    if o.first.returns ≠ f.returns then .error (.resultDiffers s.name o.first.returns f.returns)
    else if o.all.any (paramDescriptor ·.paramTys = paramDescriptor s.params) then
      .error (.duplicate s.name s.params)
    else .ok (r.extend f)

/-- The registry of a library. The first signature that breaks a rule is reported. -/
def ofLibrary (library : Library) : Except RegistryError Registry := library.foldlM register empty

/-- The overload of a name whose descriptor starts as given. -/
def matching? (r : Registry) (name descriptor : String) : Except Ambiguous (Option Function) :=
  match (r.overloads name).filter (descriptor.toList.isPrefixOf ·.descriptor.toList) with
  | [] => .ok none
  | [f] => .ok (some f)
  | _ => .error ⟨name, descriptor⟩

/-- The overload of a name with these parameters, or the first one if none are given. -/
def find? (r : Registry) (name : String) : Option (List Ty) → Except Ambiguous (Option Function)
  | none => .ok ((r.overloads? name).map (·.first))
  | some params => r.matching? name (paramDescriptor params)

end Registry

end Samo
