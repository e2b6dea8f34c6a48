import Samo.Builtin
import Samo.Check.Tally
import Samo.Syntax

/-!
# Problems

Everything that the check of a program can report, and the words for it.
-/

namespace Samo

/-- What is wrong with a program, or remarkable about it. -/
inductive Problem where
  | syntaxError (pos : Pos) (fault : Fault)
  -- expressions
  | unknownIdentifier (name : String)
  | unknownFunction (name : String)
  | notCallable (name : String) (type : Ty)
  | voidCall
  | argumentCount (callee : String) (expected given : Nat)
  | argumentMismatch (callee : String) (index : Nat) (expected : ValueType)
  | argumentMixed (callee : String) (index : Nat)
  | argumentType (callee : String) (index : Nat) (type : Ty)
  | noOverload (callee : String) (overloads : List Function)
  | ambiguousOverload (error : Ambiguous)
  | divisionByZero
  | leftMixed
  | rightMixed
  | incomparable (left right : Ty)
  | operatorType (op : BinaryOp) (type : Ty)
  -- declarations and assignments
  | voidVariable
  | builtinRedeclared (name : String)
  | declaredBefore (name : String) (line : Int)
  | inferenceMixed
  | inferenceType (name : String) (type : Ty)
  | invalidValue (type : ValueType)
  | wrongValue (expected : ValueType) (found : Detection)
  | builtinAssigned (name : String)
  | undeclaredAssigned
  | functionAssigned
  -- functions
  | nestedFunction
  | builtinRedefined (name : String)
  | parameterType (function parameter : String) (type : TypeName)
  | returnOutside
  | noReturn (type : Ty)
  | returnMissing (type : Ty)
  | returnFromVoid
  | returnMixed
  | returnType (expected found : Ty)
  | returnInvalid (type : Ty)
  | bodyInvalid
  | pathsIncomplete (type : TypeName)
  -- control flow
  | condition (keyword : Keyword)
  | breakOutside
  | continueOutside
  | probabilityMixed (compound : Bool)
  | probabilityType (compound : Bool)
  | probableDeclaration
  | infeasibleBody
  | infeasibleAlternative
  | nestedAlternatives
  | needsUnsupported
deriving DecidableEq, Repr

namespace Problem

/-- What a report calls the number after `maybe`. -/
def chance (compound : Bool) : String := if compound then "uncertainty" else "probability"

/-- The same at the start of a sentence. -/
def capitalChance (compound : Bool) : String := if compound then "Uncertainty" else "Probability"

/-- The overloads with their numbers, from `index` on. -/
def listOverloads : Nat → List Function → List String
  | _, [] => []
  | index, f :: fs => s!"{index}. {formatParams f.paramTys}" :: listOverloads (index + 1) fs

/-- The words for a problem. -/
def message : Problem → String
  | syntaxError pos fault => s!"Syntax error at '{pos.text}': {fault.message}"
  | unknownIdentifier name => s!"Unknown identifier {name}."
  | unknownFunction name => s!"Unknown function {name}."
  | notCallable name type => s!"Cannot call {name} as a function: it is of type {type.name}."
  | voidCall =>
    "Illegal return type of function call in expression. The function call returns no value."
  | argumentCount callee expected given =>
    s!"Expected {expected} arguments for call to {callee} but {given} arguments were provided."
  | argumentMismatch callee index expected =>
    s!"Type mismatch in argument {index} of call to {callee}: expected {expected.name}."
  | argumentMixed callee index => s!"Mismatched types in argument {index} of call to {callee}."
  | argumentType callee index type =>
    s!"Argument {index} of call to {callee} cannot be of type {type.name}."
  | noOverload callee overloads =>
    s!"Bad arguments passed to builtin function {callee}. Use one of the following overloads: " ++
      " ".intercalate (listOverloads 1 overloads)
  | ambiguousOverload error => s!"Internal error: {error.message}."
  | divisionByZero => "Division by zero in constant expression."
  | leftMixed => "Expression on LHS has mixed types."
  | rightMixed => "Expression on RHS has mixed types."
  | incomparable left right => s!"Cannot compare {left.name} on LHS with {right.name} on RHS."
  | operatorType op type => s!"The operator '{op.text}' cannot be used with {type.name}."
  | voidVariable => "Void types for variable declarations are not allowed."
  | builtinRedeclared name =>
    s!"Identifier {name} is a builtin function, so it cannot be redefined."
  | declaredBefore name line => s!"Identifier {name} was declared before on line {line}."
  | inferenceMixed => "Mismatched types in expression on RHS of type-inferred declaration."
  | inferenceType name type =>
    s!"Cannot infer the type of {name} from an expression of type {type.name}."
  | invalidValue type => s!"Invalid {type.name} expression on RHS."
  | wrongValue expected found =>
    s!"Expected {expected.name} expression on RHS, found {found.describe}."
  | builtinAssigned name =>
    s!"Identifier {name} is a builtin function, so it cannot be assigned to."
  | undeclaredAssigned => "Assignment to previously undeclared symbol."
  | functionAssigned => "Cannot assign to an identifier of type function."
  | nestedFunction => "Functions within functions are not yet supported."
  | builtinRedefined name => s!"{name} is a built-in function and cannot be redefined."
  | parameterType function parameter type =>
    s!"Parameter {parameter} of function {function} cannot be of type {type.name}."
  | returnOutside => "Return statement outside of a function."
  | noReturn type => s!"Function must return a value of type {type.name}."
  | returnMissing type => s!"Expected a return value of type {type.name}, found none."
  | returnFromVoid => "Cannot return a value from a function returning void."
  | returnMixed => "Mismatched types in expression in return statement."
  | returnType expected found =>
    s!"Expected a return value of type {expected.name}, found {found.name}."
  | returnInvalid type => s!"Invalid {type.name} expression in return statement."
  | bodyInvalid =>
    "Function body contains errors. (There may be additional information above.)"
  | pathsIncomplete type =>
    s!"Not all possible execution paths in the function return a value of type {type.name}."
  | condition keyword => s!"Invalid boolean expression in condition for {keyword.text} statement."
  | breakOutside => "Breakout statement must be within a loop."
  | continueOutside => "Continue statement must be within a loop."
  | probabilityMixed compound =>
    s!"Expression has mixed types. Expected an int expression for {chance compound}."
  | probabilityType compound =>
    s!"{capitalChance compound} must be provided as an expression that evaluates to int."
  | probableDeclaration =>
    "Variable declarations and return statements cannot be probable as of now."
  | infeasibleBody =>
    "Infeasible probable statement: variable declarations and return statements cannot be " ++
      "probable as of now."
  | infeasibleAlternative =>
    "Infeasible alternate statement: variable declarations and return statements cannot be " ++
      "alternates as of now."
  | nestedAlternatives => "Nested probable statements with alternates is an untested feature."
  | needsUnsupported => "Needs statement is not yet supported."

end Problem

end Samo
