/-!
# Types and values

Three layers of types. A `ValueType` is the type of a value. A `TypeName` is a type that a program
can write: a value type or `void`. A `Ty` is what the checker says of an expression: it may also be
a function's name or a `thing`, which no rule accepts.
-/

namespace Samo

/-- The types of values. -/
inductive ValueType where
  | int
  | string
  | boolie
deriving DecidableEq, Repr, Inhabited

namespace ValueType

/-- How the type is written. -/
def name : ValueType → String
  | int => "int"
  | string => "string"
  | boolie => "boolie"

/-- The letter for the type in a descriptor. -/
def letter : ValueType → String
  | int => "I"
  | string => "S"
  | boolie => "Z"

end ValueType

/-- The types that a program can write. -/
inductive TypeName where
  | value (type : ValueType)
  | void
deriving DecidableEq, Repr

namespace TypeName

/-- How the type is written. -/
def name : TypeName → String
  | value t => t.name
  | void => "void"

/-- Every type that can be written, once. -/
def all : List TypeName := [value .int, value .string, value .boolie, void]

def ofName? (s : String) : Option TypeName := all.find? (·.name == s)

end TypeName

/-- The types that the checker speaks of. -/
inductive Ty where
  | thing
  | value (type : ValueType)
  | function
  | void
deriving DecidableEq, Repr, Inhabited

/-- What the checker calls a written type. -/
def TypeName.ty : TypeName → Ty
  | value t => .value t
  | void => .void

namespace Ty

/-- How reports name the type. -/
def name : Ty → String
  | thing => "thing"
  | value t => t.name
  | function => "function"
  | void => "void"

/-- The letter for the type in a descriptor; a type that no signature holds has none. -/
def letter : Ty → String
  | value t => t.letter
  | void => "V"
  | thing | function => ""

/-- Every type once, in the order of the codes. -/
def all : List Ty :=
  [thing, value .int, value .string, value .boolie, function, void]

/-- The place of the type in `all`. -/
def code (t : Ty) : Nat := all.idxOf t

/-- The type with a code. A number that is no code stands for a thing. -/
def ofCode (n : Int) : Ty := (all.find? (fun t => (t.code : Int) == n)).getD thing

/-- The type with a name. A word that is no name stands for a thing. -/
def ofName (s : String) : Ty := (all.find? (·.name == s)).getD thing

/-- The type of values, if values can have the type. -/
def value? : Ty → Option ValueType
  | value t => some t
  | _ => none

/-- The type as a function's result, if a function can return it. -/
def result? : Ty → Option TypeName
  | value t => some (.value t)
  | void => some .void
  | thing | function => none

/-- Whether `<`, `<=`, `>` and `>=` take the type. -/
def isOrdered : Ty → Bool
  | value .int => true
  | _ => false

/-- Whether `==` and `!=` take the type. -/
def isComparable : Ty → Bool
  | value _ => true
  | _ => false

@[simp] theorem value?_value (t : ValueType) : (value t).value? = some t := rfl

theorem value?_eq_some_iff {t : Ty} {v : ValueType} : t.value? = some v ↔ t = value v := by
  cases t <;> simp [value?]

end Ty

/-! ## Descriptors -/

/-- The parameter types of a signature in letters. -/
def paramDescriptor (params : List Ty) : String := "(" ++ String.join (params.map Ty.letter) ++ ")"

/-- A signature in letters: parameters, then result. -/
def descriptor (params : List Ty) (result : Ty) : String := paramDescriptor params ++ result.letter

/-- The parameter types of a signature in words. -/
def formatParams (params : List Ty) : String :=
  "(" ++ ", ".intercalate (params.map Ty.name) ++ ")"

/-! ## Values -/

/-- A value that a variable can hold. Integers have 32 bits. -/
inductive Value where
  | int (n : Int32)
  | string (s : String)
  | boolie (b : Bool)
deriving DecidableEq, Repr

namespace Value

/-- The type of a value. -/
def type : Value → ValueType
  | int _ => .int
  | string _ => .string
  | boolie _ => .boolie

/-- What a variable holds as long as nothing better is known. -/
def initial : ValueType → Value
  | .int => int 0xDEAD
  | .string => string "lawl"
  | .boolie => boolie true

@[simp] theorem type_initial (t : ValueType) : (initial t).type = t := by cases t <;> rfl

end Value

end Samo
