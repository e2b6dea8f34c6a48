import Samo.Token

/-!
# Syntax errors

What can be wrong with the form of a program: a flaw in a word, or a word where the grammar wants
another one. A fault names words without their places; a `SyntaxError` is a fault at a place.
-/

namespace Samo

/-- Why a text is not a program. -/
inductive Fault where
  | flaw (flaw : Flaw)
  | expected (kind : Kind) (found : Lexeme)
  | expectedParameter (found : Lexeme)
  | noStatement (found : Lexeme)
  | noExpression (found : Lexeme)
  | chainedComparison
  | outOfRange (digits : String)
deriving DecidableEq, Repr

def Fault.message : Fault → String
  | flaw f => f.message
  | expected kind found => s!"expected {kind.name}, found {found.describe}"
  | expectedParameter found => s!"expected parameter type, found {found.describe}"
  | noStatement found => s!"unexpected {found.describe} at start of statement"
  | noExpression found => s!"unexpected {found.describe} in expression"
  | chainedComparison => "comparison operators cannot be chained"
  | outOfRange digits => s!"integer literal {digits} out of range"

/-- A fault and the place of the word it was found at. -/
structure SyntaxError where
  pos : Pos
  fault : Fault
deriving DecidableEq, Repr

/-- The report with its place. -/
def SyntaxError.text (e : SyntaxError) : String := s!"line {e.pos.text} {e.fault.message}"

end Samo
