import Samo.Ty

/-!
# Symbols

What a name can stand for: a variable with what is known of its value, or a function with its
signature. A symbol keeps the line it was declared on and the coordinates of its scope.
-/

namespace Samo

/-- Where a scope stands: how deep it is nested, and its number among the scopes of that depth. -/
structure Coordinates where
  depth : Nat
  index : Nat
deriving DecidableEq, Repr, Inhabited

namespace Coordinates

/-- The coordinates of the scope around the whole program. -/
def global : Coordinates := ⟨0, 0⟩

/-- Both numbers between parentheses. -/
def text (c : Coordinates) : String := s!"({c.depth}, {c.index})"

end Coordinates

/--
A variable. `known` says that `value` is what the variable starts with; otherwise `value` is a
placeholder of the right type.
-/
structure Variable where
  name : String
  line : Int
  value : Value
  inferred : Bool := false
  known : Bool := false
  initialised : Bool := false
  home : Coordinates := .global
deriving DecidableEq, Repr

namespace Variable

/-- A variable nothing is known of yet. -/
def fresh (type : ValueType) (name : String) (line : Int) : Variable :=
  { name, line, value := .initial type }

/-- The type of what the variable holds. -/
def type (v : Variable) : ValueType := v.value.type

end Variable

/-- A parameter in a signature. -/
structure Parameter where
  name : String
  type : ValueType
deriving DecidableEq, Repr

structure Function where
  name : String
  line : Int
  params : List Parameter
  returns : TypeName
  home : Coordinates := .global
deriving DecidableEq, Repr

namespace Function

def paramTypes (f : Function) : List ValueType := f.params.map (·.type)

/-- The types of the parameters, as the checker calls them. -/
def paramTys (f : Function) : List Ty := f.paramTypes.map .value

/-- The signature in letters. -/
def descriptor (f : Function) : String := Samo.descriptor f.paramTys f.returns.ty

end Function

/-- A result type that no function can have. -/
structure ResultError where
  name : String
  type : Ty
deriving DecidableEq, Repr

def ResultError.message (e : ResultError) : String :=
  s!"function {e.name} cannot return {e.type.name}"

/-- A function with a result of any type, if a function can have it. -/
def Function.create (name : String) (line : Int) (params : List Parameter) (result : Ty) :
    Except ResultError Function :=
  match result.result? with
  | some returns => .ok { name, line, params, returns }
  | none => .error ⟨name, result⟩

/-- What a name stands for. -/
inductive Symbol where
  | var (v : Variable)
  | fn (f : Function)
deriving DecidableEq, Repr

namespace Symbol

def name : Symbol → String
  | var v => v.name
  | fn f => f.name

def line : Symbol → Int
  | var v => v.line
  | fn f => f.line

/-- The type of the name in an expression. -/
def type : Symbol → Ty
  | var v => .value v.type
  | fn _ => .function

/-- The scope that holds the symbol. -/
def home : Symbol → Coordinates
  | var v => v.home
  | fn f => f.home

/-- The symbol in a scope. -/
def settle (c : Coordinates) : Symbol → Symbol
  | var v => var { v with home := c }
  | fn f => fn { f with home := c }

/-- Whether the type was left to the initial value. -/
def inferred : Symbol → Bool
  | var v => v.inferred
  | fn _ => false

/-- Whether everything is known of the symbol that ever will be. -/
def known : Symbol → Bool
  | var v => v.known
  | fn _ => true

/-- Whether the declaration has an initial value. -/
def initialised : Symbol → Bool
  | var v => v.initialised
  | fn _ => false

@[simp] theorem name_settle (c : Coordinates) (s : Symbol) : (s.settle c).name = s.name := by
  cases s <;> rfl

@[simp] theorem home_settle (c : Coordinates) (s : Symbol) : (s.settle c).home = c := by
  cases s <;> rfl

end Symbol

end Samo
